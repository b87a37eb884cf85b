import ProgramGen.Proofs.Typing.Variables

/-!
# Open parameters

A parameter of a type is open where a substitution puts another type in its place: as the type itself,
as an argument, or in the bound of a projection, but not in the bound of a parameter. What a
substitution makes of a type depends on the open parameters, so a larger substitution makes the same
of a type whose open parameters are bound already. Where bounds mention only parameters that come
earlier, what was compared with a bound stays within it.
-/

namespace ProgramGen

variable {t u : Ty} {c : TypeCtor} {p : TypeParam} {m m' m'' : Subst} {n : String}

/-- Induction on types in which the arguments of a generic class come one at a time. -/
@[elab_as_elim]
theorem Ty.spine_induction {P : Ty → Prop}
    (builtin : ∀ n k l b ss, P (.builtin n k l b ss)) (simple : ∀ n ss, P (.simple n ss))
    (param : ∀ p, (∀ b ∈ p.bound, P b) → P (.param p))
    (wildcard : ∀ v b, (∀ t ∈ b, P t) → P (.wildcard v b)) (constructor : ∀ c, P (.constructor c))
    (nil : ∀ c, P (.applied c []))
    (cons : ∀ c x xs, P x → P (.applied c xs) → P (.applied c (x :: xs))) (t : Ty) : P t := by
  induction t using Ty.parts_induction with
  | builtin => exact builtin ..
  | simple => exact simple ..
  | param p ih => exact param p ih
  | wildcard v b ih => exact wildcard v b ih
  | constructor => exact constructor ..
  | applied c args ih =>
    induction args with
    | nil => exact nil c
    | cons x xs ihxs =>
      exact cons c x xs (ih x List.mem_cons_self) (ihxs fun a ha => ih a (List.mem_cons_of_mem x ha))

/-! ## Open parameters -/

mutual

/-- The open parameters of a type, from left to right. -/
def Ty.openParams : Ty → List TypeParam
  | .param p => [p]
  | .applied _ args => Ty.openParamsList args
  | .wildcard _ (some b) => b.openParams
  | .wildcard _ none => []
  | .builtin .. => []
  | .simple .. => []
  | .constructor _ => []

def Ty.openParamsList : List Ty → List TypeParam
  | [] => []
  | t :: ts => t.openParams ++ Ty.openParamsList ts

end

@[simp]
theorem Ty.openParams_param (p : TypeParam) : (Ty.param p).openParams = [p] := rfl

@[simp]
theorem Ty.openParams_applied_nil (c : TypeCtor) : (Ty.applied c []).openParams = [] := rfl

@[simp]
theorem Ty.openParams_applied_cons (c : TypeCtor) (x : Ty) (xs : List Ty) :
    (Ty.applied c (x :: xs)).openParams = x.openParams ++ (Ty.applied c xs).openParams := rfl

@[simp]
theorem Ty.openParams_wildcard (v : Variance) (b : Ty) :
    (Ty.wildcard v (some b)).openParams = b.openParams := rfl

/-- A parameter that is open in a type occurs in it. -/
theorem Ty.occurs_of_mem_openParams (h : p ∈ t.openParams) : t.Occurs p := by
  induction t using Ty.spine_induction with
  | builtin | simple | constructor | nil => cases h
  | param q =>
    obtain rfl : p = q := by simpa using h
    exact .here
  | wildcard v b ih =>
    cases b with
    | none => cases h
    | some b => exact .wildcard (ih b rfl h)
  | cons c x xs ihx ihxs =>
    rcases List.mem_append.mp h with h | h
    · exact .arg List.mem_cons_self (ihx h)
    · cases ihxs h with
      | arg ha hp => exact .arg (List.mem_cons_of_mem x ha) hp

/-- A type without type variables has no open parameter. -/
theorem Ty.openParams_eq_nil (h : t.hasVariables = false) : t.openParams = [] :=
  List.eq_nil_iff_forall_not_mem.mpr fun p hp =>
    Ty.hasVariables_eq_false.mp h p (occurs_of_mem_openParams hp)

theorem Ty.isVariable_eq_false (h : t.openParams = []) : t.isVariable = false := by
  cases t with
  | param => cases h
  | _ => rfl

/-! ## Larger substitutions -/

/-- What `m` binds, `m'` binds to the same types. -/
def Subst.Extends (m' m : Subst) : Prop := ∀ n t, m.lookup n = some t → m'.lookup n = some t

theorem Subst.Extends.refl (m : Subst) : m.Extends m := fun _ _ h => h

theorem Subst.Extends.trans (h' : m''.Extends m') (h : m'.Extends m) : m''.Extends m :=
  fun n t hn => h' n t (h n t hn)

theorem Subst.extends_empty (m : Subst) : m.Extends ∅ := fun _ _ h => by cases h

@[simp]
theorem Subst.lookup_insert_self : (m.insert p t).lookup p.name = some t := by
  rw [lookup_insert, if_pos rfl]

/-- A new binding comes last. -/
theorem Subst.entries_insert (h : m.get? p = none) :
    (m.insert p t).entries = m.entries ++ [(p, t)] := by
  obtain ⟨xs⟩ := m
  simp only [get?, lookup, Option.map_eq_none_iff, List.find?_eq_none] at h
  simp only [insert]
  induction xs with
  | nil => rfl
  | cons x xs ih =>
    have hx : x.1.name ≠ p.name := by simpa using h x List.mem_cons_self
    rw [insertEntry, if_neg hx, ih fun y hy => h y (List.mem_cons_of_mem x hy)]
    rfl

/-- To bind a parameter to what it stands for changes nothing. -/
theorem Subst.insert_eq_self (h : m.get? p = some t) : m.insert p t = m := by
  obtain ⟨xs⟩ := m
  rw [insert, mk.injEq]
  induction xs with
  | nil => cases h
  | cons x xs ih =>
    rw [insertEntry]
    split
    · obtain rfl : x.2 = t := by simpa [get?, lookup, *] using h
      rfl
    · rw [ih (by simpa [get?, lookup, *] using h)]

/-- A new binding leaves the others as they are. -/
theorem Subst.insert_extends (h : m.get? p = none) : (m.insert p t).Extends m := by
  intro n u hn
  rw [lookup_insert, if_neg]
  · exact hn
  · rintro rfl
    rw [get?, hn] at h
    cases h

theorem Subst.exists_lookup_of_mem_keys (h : n ∈ m.keys.map (·.name)) : ∃ u, m.lookup n = some u := by
  obtain ⟨x, hx, rfl⟩ : ∃ x ∈ m.entries, x.1.name = n := by simpa [keys] using h
  refine Option.isSome_iff_exists.mp ?_
  rw [lookup, Option.isSome_map, List.find?_isSome]
  exact ⟨x, hx, by simp⟩

/-- A binding that is found is one of the entries. -/
theorem Subst.mem_of_lookup (h : m.lookup n = some t) : ∃ x ∈ m.entries, x.1.name = n ∧ x.2 = t := by
  obtain ⟨x, hx, rfl⟩ := Option.map_eq_some_iff.mp h
  exact ⟨x, List.mem_of_find?_eq_some hx, by simpa using List.find?_some hx, rfl⟩

/-- Entries that come after the others leave these as they are. -/
theorem Subst.extends_of_entries_eq {added : List (TypeParam × Ty)}
    (h : m'.entries = m.entries ++ added) : m'.Extends m := by
  intro n t hn
  rw [lookup, Option.map_eq_some_iff] at hn
  obtain ⟨x, hx, rfl⟩ := hn
  rw [lookup, h, List.find?_append, hx]
  rfl

theorem Subst.get?_insert_of_ne {q : TypeParam} (h : p.name ≠ q.name) :
    (m.insert p t).get? q = m.get? q := by
  rw [get?, lookup_insert, if_neg h, get?]

/-- With one more parameter bound, the names before the next one are bound. -/
theorem Subst.Extends.exists_lookup_cons {before : List String} (hm : m'.Extends m)
    (hp : m'.get? p = some t) (hbefore : ∀ n ∈ before, ∃ u, m.lookup n = some u) :
    ∀ n ∈ p.name :: before, ∃ u, m'.lookup n = some u :=
  List.forall_mem_cons.mpr ⟨⟨t, hp⟩, fun n hn => (hbefore n hn).imp fun u hu => hm n u hu⟩

/-- **A larger substitution makes the same of a type whose open parameters are bound.** -/
theorem Ty.subst_of_extends (hm : m'.Extends m) (h : ∀ p ∈ t.openParams, ∃ u, m.get? p = some u) :
    t.subst m' = t.subst m := by
  induction t using Ty.spine_induction with
  | builtin | simple | constructor | nil => simp only [Ty.subst, Ty.substList]
  | param p =>
    obtain ⟨u, hu⟩ := h p (by simp)
    obtain ⟨n, v, b⟩ := p
    have hu' : m.lookup n = some u := hu
    simp only [Ty.subst, hu', hm n u hu']
  | wildcard v b ih =>
    cases b with
    | none => rfl
    | some b => simp only [Ty.subst, Ty.substBound, ih b rfl h]
  | cons c x xs ihx ihxs =>
    simp only [openParams_applied_cons, List.mem_append] at h
    have hx := ihx fun p hp => h p (.inl hp)
    have hxs := ihxs fun p hp => h p (.inr hp)
    simp only [Ty.subst, Ty.applied.injEq, true_and] at hxs
    simp only [Ty.subst, Ty.substList, hx, hxs]

/-- The empty substitution changes nothing. -/
theorem Ty.subst_empty (t : Ty) : t.subst ∅ = t := by
  induction t using Ty.spine_induction with
  | builtin | simple | constructor | nil => simp only [Ty.subst, Ty.substList]
  | param p ih =>
    obtain ⟨n, v, b⟩ := p
    simp only [Ty.subst, Subst.lookup_empty]
    cases b with
    | none => rfl
    | some b => simp only [Ty.substBound, ih b rfl]
  | wildcard v b ih =>
    cases b with
    | none => rfl
    | some b => simp only [Ty.subst, Ty.substBound, ih b rfl]
  | cons c x xs ihx ihxs =>
    simp only [Ty.subst, Ty.applied.injEq, true_and] at ihxs
    simp only [Ty.subst, Ty.substList, ihx, ihxs]

/-- A type without open parameters stays as it is. -/
theorem Ty.subst_of_openParams_eq_nil (h : t.openParams = []) (m : Subst) : t.subst m = t := by
  rw [subst_of_extends m.extends_empty (by simp [h]), subst_empty]

/-! ## Bounds -/

/-- The type is within the bound of the parameter, where parameters stand for what `m` says. -/
def TypeParam.Admits (p : TypeParam) (m : Subst) (t : Ty) : Prop :=
  ∀ b ∈ p.bound, t.isSubtype (b.subst m)

theorem TypeParam.admits_of_bound_eq_none (h : p.bound = none) : p.Admits m t := by
  intro b hb
  rw [h] at hb
  cases hb

theorem TypeParam.admits_iff_isSubtype (h : p.bound = some u) :
    p.Admits m t ↔ t.isSubtype (u.subst m) := by
  simp [Admits, h]

/-- Every bound mentions only names that are given or belong to an earlier parameter. -/
def BoundsLookBack : List String → List TypeParam → Prop
  | _, [] => True
  | before, p :: ps =>
    (∀ b ∈ p.bound, ∀ q ∈ b.openParams, q.name ∈ before) ∧ BoundsLookBack (p.name :: before) ps

instance decidableBoundsLookBack : ∀ before ps, Decidable (BoundsLookBack before ps)
  | _, [] => .isTrue trivial
  | before, p :: ps =>
    have := decidableBoundsLookBack (p.name :: before) ps
    inferInstanceAs (Decidable ((∀ b ∈ p.bound, ∀ q ∈ b.openParams, q.name ∈ before) ∧ _))

/-- **What is within a bound is within it under a larger substitution**, once the parameters of the
bound stand for something, and the other way round. -/
theorem TypeParam.admits_of_extends (hm : m'.Extends m)
    (h : ∀ b ∈ p.bound, ∀ q ∈ b.openParams, ∃ u, m.get? q = some u) :
    p.Admits m' t ↔ p.Admits m t := by
  refine forall₂_congr fun b hb => ?_
  rw [Ty.subst_of_extends hm (h b hb)]

end ProgramGen

import ProgramGen.Proofs.Binding.Parameters

/-!
# Substitutions compose

To apply one substitution after another is to apply one: the values of the first with the second
applied to them, and what the second binds besides. A value that is put in is not looked at again, so
whatever a type mentions afterwards it mentioned before, under a name that is not bound, or it came in
with a value. Views through a chain of receivers and superclasses rest on this: what the arguments of a
type become, the members seen through it become.
-/

namespace ProgramGen

variable {t u : Ty} {p q : TypeParam} {m m' : Subst} {n : String} {ps : List TypeParam} {args : List Ty}

/-! ## One substitution for two -/

namespace Subst

/-- The substitution that does what `m` does, and then what `m'` does. -/
def andThen (m m' : Subst) : Subst :=
  insertMissing ⟨m.entries.map fun x => (x.1, x.2.subst m')⟩ m'

theorem lookup_insertMissing (m m' : Subst) (n : String) :
    (m.insertMissing m').lookup n = (m.lookup n).or (m'.lookup n) := by
  obtain ⟨xs⟩ := m'
  unfold insertMissing
  induction xs generalizing m with
  | nil => simp [lookup]
  | cons x xs ih =>
    simp only [List.foldl_cons] at ih ⊢
    split
    · rename_i hx
      obtain ⟨v, hv⟩ : ∃ v, m.lookup x.1.name = some v := Option.isSome_iff_exists.mp hx
      rw [ih]
      by_cases hn : x.1.name = n
      · rw [← hn, hv]
        rfl
      · simp [lookup, hn]
    · rename_i hx
      have hnone : m.lookup x.1.name = none := by simpa [contains, get?] using hx
      rw [ih]
      by_cases hn : x.1.name = n
      · subst hn
        simp only [lookup, Option.map_eq_none_iff] at hnone
        simp [lookup, List.find?_append, hnone]
      · simp [lookup, List.find?_append, hn]

/-- A name stands for its value under `m` with `m'` applied, or else for what `m'` says. -/
theorem lookup_andThen (m m' : Subst) (n : String) :
    (m.andThen m').lookup n = ((m.lookup n).map (Ty.subst m')).or (m'.lookup n) := by
  rw [andThen, lookup_insertMissing]
  congr 1
  simp only [lookup, List.find?_map, Option.map_map]
  rfl

end Subst

/-- **Two substitutions in a row are one.** -/
theorem Ty.subst_andThen (m m' : Subst) (t : Ty) : (t.subst m).subst m' = t.subst (m.andThen m') := by
  induction t using Ty.parts_induction with
  | builtin | simple | constructor => simp only [subst]
  | param p ih =>
    obtain ⟨n, v, b⟩ := p
    have hlookup := Subst.lookup_andThen m m' n
    cases hm : m.lookup n with
    | some u => simp [subst, hlookup, hm]
    | none =>
      -- The bound is substituted where neither of the two binds the parameter.
      have hb : substBound m' (substBound m b) = substBound (m.andThen m') b := by
        cases b with
        | none => rfl
        | some b => simp only [substBound, ih b rfl]
      cases hm' : m'.lookup n with
      | some u => simp [subst, hlookup, hm, hm']
      | none => simp [subst, hlookup, hm, hm', hb]
  | wildcard v b ih =>
    cases b with
    | none => rfl
    | some b => simp only [subst, substBound, ih b rfl]
  | applied c args ih =>
    simp only [subst, substList_eq, List.map_map, applied.injEq, true_and]
    exact List.map_congr_left ih

/-- What a type mentions after a substitution, it mentioned before under a name that is not bound, or
a value mentions it. -/
theorem Ty.occurs_of_occurs_subst (h : (t.subst m).Occurs p) :
    (∃ q, t.Occurs q ∧ q.name = p.name ∧ m.lookup p.name = none) ∨ ∃ x ∈ m.entries, x.2.Occurs p := by
  induction t using Ty.parts_induction with
  | builtin | simple | constructor =>
    rw [subst] at h
    cases h
  | param q ih =>
    obtain ⟨n, v, b⟩ := q
    rw [subst] at h
    split at h
    · rename_i u hu
      obtain ⟨x, hx, -, rfl⟩ := Subst.mem_of_lookup hu
      exact .inr ⟨x, hx, h⟩
    · rename_i hnone
      rcases occurs_param.mp h with rfl | ⟨b', hb', h⟩
      · exact .inl ⟨_, .here, rfl, hnone⟩
      · obtain ⟨b, rfl, rfl⟩ : ∃ b₀, b = some b₀ ∧ b₀.subst m = b' := by
          rw [substBound_eq, Option.map_eq_some_iff] at hb'
          exact hb'
        refine (ih b rfl h).imp_left ?_
        rintro ⟨q, hq, hname⟩
        exact ⟨q, .bound rfl hq, hname⟩
  | wildcard v b ih =>
    cases b with
    | none => cases h
    | some b =>
      rw [subst] at h
      cases h with
      | wildcard h =>
        refine (ih b rfl h).imp_left ?_
        rintro ⟨q, hq, hname⟩
        exact ⟨q, .wildcard hq, hname⟩
  | applied c args ih =>
    rw [subst, substList_eq] at h
    cases h with
    | arg ha' h =>
      obtain ⟨a, ha, rfl⟩ := List.mem_map.mp ha'
      refine (ih a ha h).imp_left ?_
      rintro ⟨q, hq, hname⟩
      exact ⟨q, .arg ha hq, hname⟩

/-- A parameter that is open after a substitution was open before, under a name that is not bound, or
is open in the value of one that was. -/
theorem Ty.exists_of_mem_openParams_subst (h : p ∈ (t.subst m).openParams) :
    ∃ q ∈ t.openParams, (m.get? q = none ∧ q.name = p.name) ∨
      ∃ u, m.get? q = some u ∧ p ∈ u.openParams := by
  induction t using Ty.spine_induction with
  | builtin | simple | constructor | nil => cases h
  | param q =>
    obtain ⟨n, v, b⟩ := q
    refine ⟨⟨n, v, b⟩, by simp, ?_⟩
    rw [subst] at h
    split at h
    · exact .inr ⟨_, ‹_›, h⟩
    · obtain rfl := List.mem_singleton.mp h
      exact .inl ⟨‹_›, rfl⟩
  | wildcard v b ih =>
    cases b with
    | none => cases h
    | some b => exact ih b rfl h
  | cons c x xs ihx ihxs =>
    rcases List.mem_append.mp h with h | h
    · obtain ⟨q, hq, hp⟩ := ihx h
      exact ⟨q, List.mem_append_left _ hq, hp⟩
    · obtain ⟨q, hq, hp⟩ := ihxs h
      exact ⟨q, List.mem_append_right _ hq, hp⟩

/-- **Substitutions compose, and each replaces all parameters at once.** -/
theorem Ty.subst_composes :
    (∀ (m m' : Subst) (t : Ty), (t.subst m).subst m' = t.subst (m.andThen m')) ∧
    (∀ (m m' : Subst) (n : String),
      (m.andThen m').lookup n = ((m.lookup n).map (Ty.subst m')).or (m'.lookup n)) ∧
    ∀ (m : Subst) (t : Ty), ∀ p ∈ (t.subst m).typeVars,
      (∃ q ∈ t.typeVars, q.name = p.name ∧ m.lookup p.name = none) ∨
        ∃ x ∈ m.entries, p ∈ x.2.typeVars := by
  refine ⟨subst_andThen, Subst.lookup_andThen, fun m t p hp => ?_⟩
  simp only [mem_typeVars] at hp ⊢
  exact occurs_of_occurs_subst hp

/-! ## Arguments -/

/-- Where arguments are changed, what they bind is changed. -/
theorem Subst.lookup_ofArgs_map (f : Ty → Ty) (ps : List TypeParam) (args : List Ty) (n : String) :
    (ofArgs ps (args.map f)).lookup n = ((ofArgs ps args).lookup n).map f := by
  rw [lookup_ofArgs, lookup_ofArgs, List.zip_map_right, List.foldl_map]
  suffices ∀ (xs : List (TypeParam × Ty)) (r : Option Ty),
      xs.foldl (fun r x => if x.1.name = n then some (f x.2) else r) (r.map f) =
        (xs.foldl (fun r x => if x.1.name = n then some x.2 else r) r).map f from this _ none
  intro xs
  induction xs with
  | nil => intro r; rfl
  | cons x xs ih =>
    intro r
    simp only [List.foldl_cons, ← ih]
    split <;> rfl

/-- Every parameter is bound if there are as many arguments. -/
theorem Subst.exists_lookup_ofArgs (hlength : args.length = ps.length) (hn : ∃ q ∈ ps, q.name = n) :
    ∃ u, (ofArgs ps args).lookup n = some u := by
  obtain ⟨q, hq, rfl⟩ := hn
  rw [← List.map_fst_zip (Nat.le_of_eq hlength.symm)] at hq
  obtain ⟨x, hx, rfl⟩ := List.mem_map.mp hq
  unfold ofArgs
  generalize ps.zip args = xs at hx
  induction xs using List.reverseRecOn with
  | nil => cases hx
  | append_singleton xs y ih =>
    rw [ofList_append_singleton, lookup_insert]
    split
    · exact ⟨_, rfl⟩
    · rename_i hne
      rcases List.mem_append.mp hx with hx | hx
      · exact ih hx
      · exact absurd (by rw [List.mem_singleton.mp hx]) hne

/-- **To substitute in what an instance inherits is to substitute in its arguments**, as nothing is open
there but the parameters of the class. -/
theorem Ty.subst_ofArgs_subst (h : ∀ p ∈ t.openParams, ∃ q ∈ ps, q.name = p.name)
    (hlength : args.length = ps.length) :
    (t.subst (Subst.ofArgs ps args)).subst m =
      t.subst (Subst.ofArgs ps (args.map (Ty.subst m))) := by
  rw [subst_andThen]
  refine subst_of_extends (fun n u hu => ?_) fun p hp => ?_
  · rw [Subst.lookup_ofArgs_map] at hu
    rw [Subst.lookup_andThen, hu, Option.some_or]
  · exact Subst.exists_lookup_ofArgs (by simpa using hlength) (h p hp)

/-! ## Renaming -/

/-- **A renaming is undone by the one that names the variables back.** -/
theorem Ty.subst_renamed (h : ∀ p, t.Occurs p → ∃ q, m.lookup p.name = some (.param q) ∧
    m'.lookup q.name = some (.param p)) : (t.subst m).subst m' = t := by
  rw [subst_andThen]
  refine subst_eq_self fun p hp u hu => ?_
  obtain ⟨q, hq, hp⟩ := h p hp
  have hback : (param q).subst m' = param p := by
    obtain ⟨n, v, b⟩ := q
    simp only [subst, hp]
  rw [Subst.lookup_andThen, hq, Option.map_some, hback, Option.some_or, Option.some.injEq] at hu
  exact hu.symm

end ProgramGen

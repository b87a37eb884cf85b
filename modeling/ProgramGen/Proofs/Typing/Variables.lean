import ProgramGen.Proofs.Subtyping.ClassTable

/-!
# Variables of types

Where a parameter occurs in a type, bounds included, and which names a type mentions outside of
bounds. A substitution is seen only where it binds what occurs.
-/

namespace ProgramGen

variable {V : Vocabulary} {t u : Ty} {c : TypeCtor} {args : List Ty} {p q : TypeParam}
variable {m m' : Subst} {N N' : String → Prop}

/-- Induction on types by their parts: bounds and arguments. -/
@[elab_as_elim]
theorem Ty.parts_induction {P : Ty → Prop}
    (builtin : ∀ n k l b ss, P (.builtin n k l b ss)) (simple : ∀ n ss, P (.simple n ss))
    (param : ∀ p, (∀ b ∈ p.bound, P b) → P (.param p))
    (wildcard : ∀ v b, (∀ t ∈ b, P t) → P (.wildcard v b)) (constructor : ∀ c, P (.constructor c))
    (applied : ∀ c args, (∀ a ∈ args, P a) → P (.applied c args)) (t : Ty) : P t := by
  induction hsize : sizeOf t using Nat.strongRecOn generalizing t with
  | _ n ih =>
    subst hsize
    cases t with
    | builtin => exact builtin ..
    | simple => exact simple ..
    | constructor => exact constructor ..
    | param p =>
      obtain ⟨n, v, b⟩ := p
      refine param _ fun t (ht : b = some t) => ih _ ?_ t rfl
      subst ht
      simp only [Ty.param.sizeOf_spec, TypeParam.mk.sizeOf_spec, Option.some.sizeOf_spec]
      omega
    | wildcard v b =>
      refine wildcard _ _ fun t (ht : b = some t) => ih _ ?_ t rfl
      subst ht
      simp only [Ty.wildcard.sizeOf_spec, Option.some.sizeOf_spec]
      omega
    | applied c args =>
      refine applied c args fun a ha => ih _ ?_ a rfl
      have := List.sizeOf_lt_of_mem ha
      simp only [Ty.applied.sizeOf_spec]
      omega

/-! ## Occurrence -/

/-- The parameter stands somewhere in the type, perhaps in the bound of another. -/
inductive Ty.Occurs (p : TypeParam) : Ty → Prop where
  | here : Occurs p (.param p)
  | bound {q b} (hq : q.bound = some b) (h : Occurs p b) : Occurs p (.param q)
  | wildcard {v b} (h : Occurs p b) : Occurs p (.wildcard v (some b))
  | arg {c args a} (ha : a ∈ args) (h : Occurs p a) : Occurs p (.applied c args)

theorem Ty.occurs_param : (Ty.param q).Occurs p ↔ p = q ∨ ∃ b, q.bound = some b ∧ b.Occurs p := by
  constructor
  · intro h
    cases h with
    | here => exact .inl rfl
    | bound hq h => exact .inr ⟨_, hq, h⟩
  · rintro (rfl | ⟨b, hq, h⟩)
    · exact .here
    · exact .bound hq h

mutual

/-- What the variables of a type add to those found is what occurs in it. -/
theorem Ty.mem_collectVariables : ∀ (t : Ty) (found : List TypeParam),
    p ∈ t.collectVariables found ↔ p ∈ found ∨ t.Occurs p
  | .param q, found => by rw [Ty.collectVariables, TypeParam.mem_collectVariables q found]
  | .applied c args, found => by
    rw [Ty.collectVariables, Ty.mem_collectVariablesList args found]
    refine or_congr Iff.rfl ⟨fun ⟨a, ha, h⟩ => .arg ha h, fun h => ?_⟩
    cases h with
    | arg ha h => exact ⟨_, ha, h⟩
  | .wildcard v (some b), found => by
    rw [Ty.collectVariables, Ty.mem_collectVariables b found]
    refine or_congr Iff.rfl ⟨.wildcard, fun h => ?_⟩
    cases h with
    | wildcard h => exact h
  | .wildcard v none, found => by
    rw [Ty.collectVariables]
    exact ⟨.inl, fun h => h.elim id nofun⟩
  | .builtin .., found | .simple .., found | .constructor _, found => by
    rw [Ty.collectVariables]
    exact ⟨.inl, fun h => h.elim id nofun⟩

theorem Ty.mem_collectVariablesList : ∀ (ts : List Ty) (found : List TypeParam),
    p ∈ Ty.collectVariablesList ts found ↔ p ∈ found ∨ ∃ t ∈ ts, t.Occurs p
  | [], found => by simp [Ty.collectVariablesList]
  | t :: ts, found => by
    rw [Ty.collectVariablesList, Ty.mem_collectVariablesList ts, Ty.mem_collectVariables t found]
    simp only [List.mem_cons, exists_eq_or_imp, or_assoc]

theorem TypeParam.mem_collectVariables : ∀ (q : TypeParam) (found : List TypeParam),
    p ∈ q.collectVariables found ↔ p ∈ found ∨ (Ty.param q).Occurs p
  | ⟨n, v, some b⟩, found => by
    rw [TypeParam.collectVariables, Ty.mem_collectVariables b, Ty.occurs_param]
    split
    · grind
    · simp [or_assoc]
  | ⟨n, v, none⟩, found => by
    rw [TypeParam.collectVariables, Ty.occurs_param]
    split
    · grind
    · simp

end

/-- **The variables of a type are what occurs in it.** -/
theorem Ty.mem_typeVars : p ∈ t.typeVars ↔ t.Occurs p := by
  simp [typeVars, mem_collectVariables]

theorem Ty.hasVariables_eq_false : t.hasVariables = false ↔ ∀ p, ¬t.Occurs p := by
  simp [hasVariables, ← mem_typeVars, List.eq_nil_iff_forall_not_mem]

/-! ## Names -/

/-- All variables that the type mentions outside of bounds have one of the given names. -/
inductive Ty.NamesIn (N : String → Prop) : Ty → Prop where
  | builtin {n k l b ss} : NamesIn N (.builtin n k l b ss)
  | simple {n ss} : NamesIn N (.simple n ss)
  | param {q : TypeParam} (h : N q.name) : NamesIn N (.param q)
  | constructor {d} : NamesIn N (.constructor d)
  | applied {d ts} (h : ∀ a ∈ ts, NamesIn N a) : NamesIn N (.applied d ts)

theorem Ty.NamesIn.mono (h : t.NamesIn N) (hN : ∀ n, N n → N' n) : t.NamesIn N' := by
  induction h with
  | param h => exact .param (hN _ h)
  | applied _ ih => exact .applied ih
  | _ => constructor

theorem Ty.Over.namesIn (ht : t.Over V) (h : ∀ p, t.Occurs p → N p.name) : t.NamesIn N := by
  induction ht with
  | param => exact .param (h _ .here)
  | applied _ _ _ ih => exact .applied fun a ha => ih a ha fun p hp => h p (.arg ha hp)
  | _ => constructor

/-- A substitution leaves the names that it gives, and those that it does not bind. -/
theorem Ty.NamesIn.subst (h : t.NamesIn N)
    (hm : ∀ n, N n → (∀ u, m.lookup n = some u → u.NamesIn N') ∧ (m.lookup n = none → N' n)) :
    (t.subst m).NamesIn N' := by
  induction h with
  | @param p h =>
    obtain ⟨n, v, b⟩ := p
    rw [Ty.subst]
    split
    · exact (hm n h).1 _ ‹_›
    · exact .param ((hm n h).2 ‹_›)
  | applied _ ih =>
    rw [Ty.subst, substList_eq]
    refine .applied fun a ha => ?_
    obtain ⟨a', ha', rfl⟩ := List.mem_map.mp ha
    exact ih a' ha'
  | _ => rw [Ty.subst]; constructor

/-- Names that are parameters of a class, and of no class parameter that varies, may be mentioned
at every position. -/
theorem Ty.NamesIn.variesIn {params : List TypeParam} {pos : Variance}
    (h : t.NamesIn fun n => (∃ q ∈ params, q.name = n) ∧
      ∀ q ∈ params, q.name = n → q.variance = .invariant) : t.VariesIn params pos := by
  induction h generalizing pos with
  | param h => exact .param h.1 fun q hq hn => .inl (h.2 q hq hn)
  | applied _ ih => exact .applied fun x hx => ih _ (List.of_mem_zip hx).2
  | _ => constructor

/-! ## Substitution -/

/-- **A substitution leaves a type as it is** if it binds nothing of it, or to itself. -/
theorem Ty.subst_eq_self (h : ∀ p, t.Occurs p → ∀ u, m.lookup p.name = some u → u = .param p) :
    t.subst m = t := by
  induction t using Ty.parts_induction with
  | builtin | simple | constructor => rw [Ty.subst]
  | param p ih =>
    obtain ⟨n, v, bound⟩ := p
    rw [Ty.subst]
    split
    · exact h _ .here _ ‹_›
    · cases bound with
      | none => rfl
      | some b => simp only [substBound, ih b rfl fun q hq => h q (.bound rfl hq)]
  | wildcard v bound ih =>
    cases bound with
    | none => rfl
    | some b => simp only [Ty.subst, substBound, ih b rfl fun q hq => h q (.wildcard hq)]
  | applied c args ih =>
    rw [Ty.subst, substList_eq, List.map_congr_left fun a ha => ih a ha fun q hq => h q (.arg ha hq)]
    simp

theorem Ty.subst_of_unbound (h : ∀ p, t.Occurs p → m.lookup p.name = none) : t.subst m = t :=
  subst_eq_self fun p hp u hu => by
    rw [h p hp] at hu
    cases hu

/-- **A substitution does what another one does** to types in which they bind the same. -/
theorem Ty.subst_congr (h : ∀ q, t.Occurs q → m'.lookup q.name = m.lookup q.name) :
    t.subst m' = t.subst m := by
  induction t using Ty.parts_induction with
  | builtin | simple | constructor => rw [Ty.subst, Ty.subst]
  | param p ih =>
    obtain ⟨n, v, bound⟩ := p
    rw [Ty.subst, Ty.subst, h _ .here]
    cases bound with
    | none => rfl
    | some b => simp only [substBound, ih b rfl fun q hq => h q (.bound rfl hq)]
  | wildcard v bound ih =>
    cases bound with
    | none => rfl
    | some b => simp only [Ty.subst, substBound, ih b rfl fun q hq => h q (.wildcard hq)]
  | applied c args ih =>
    simp only [Ty.subst, substList_eq, List.map_congr_left fun a ha => ih a ha fun q hq => h q (.arg ha hq)]

/-- A parameter becomes what it is bound to. -/
theorem Ty.subst_param_of_some (h : m.lookup p.name = some t) : (Ty.param p).subst m = t := by
  obtain ⟨n, v, b⟩ := p
  rw [Ty.subst, h]

/-- A parameter that is not bound stays, with its bound substituted. -/
theorem Ty.subst_param_of_none (h : m.lookup p.name = none) :
    (Ty.param p).subst m = .param ⟨p.name, p.variance, p.bound.map (Ty.subst m)⟩ := by
  obtain ⟨n, v, b⟩ := p
  rw [Ty.subst, h]
  simp only [substBound_eq]

/-- Bindings of different names are all found. -/
theorem Subst.lookup_ofList_of_mem {L : List (TypeParam × Ty)} {x : TypeParam × Ty}
    (hL : (L.map (·.1.name)).Nodup) (hx : x ∈ L) : (ofList L).lookup x.1.name = some x.2 := by
  induction L using List.reverseRecOn with
  | nil => cases hx
  | append_singleton L y ih =>
    rw [ofList_append_singleton, lookup_insert]
    rw [List.map_append, List.nodup_append] at hL
    obtain ⟨hL, -, hdisjoint⟩ := hL
    rcases List.mem_append.mp hx with hx | hx
    · rw [if_neg fun h => hdisjoint _ (List.mem_map_of_mem hx) _ (List.mem_singleton_self _) h.symm]
      exact ih hL hx
    · rw [List.mem_singleton.mp hx, if_pos rfl]

end ProgramGen

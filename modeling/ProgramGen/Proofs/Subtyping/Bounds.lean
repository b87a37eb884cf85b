import ProgramGen.Proofs.Subtyping.Search

/-!
# Subtyping between variables that keep their bounds

When each variable of two types is replaced by another one, whose bound is what its bound becomes, what was
below stays below. A comparison climbs from a type to what it inherits, and from a variable to its bound; the
climb goes the same way after the replacement, as the header of a class mentions the parameters of that class
alone, and these stand for the arguments.
-/

namespace ProgramGen

/-! ## Scopes of classes -/

/-- The header of the class mentions no parameters but those of the class. -/
structure TypeCtor.OwnsHeader (c : TypeCtor) : Prop where
  bounds : ∀ p ∈ c.params, ∀ b ∈ p.bound, ∀ q ∈ b.openParams, ∃ r ∈ c.params, r.name = q.name
  supers : ∀ s ∈ c.supers, ∀ q ∈ s.openParams, ∃ r ∈ c.params, r.name = q.name

/-- A type without projections in which each class has as many arguments as parameters and mentions its own
parameters alone. What a type without arguments inherits mentions none. -/
inductive Ty.Scoped : Ty → Prop where
  | builtin {n k l b ss} (hs : ∀ s ∈ ss, Scoped s) (hopen : ∀ s ∈ ss, s.openParams = []) :
      Scoped (.builtin n k l b ss)
  | simple {n ss} (hs : ∀ s ∈ ss, Scoped s) (hopen : ∀ s ∈ ss, s.openParams = []) : Scoped (.simple n ss)
  | param {p} (hb : ∀ b ∈ p.bound, Scoped b) : Scoped (.param p)
  | applied {c args} (howns : c.OwnsHeader) (hlength : args.length = c.params.length)
      (hargs : ∀ t ∈ args, Scoped t) (hbounds : ∀ p ∈ c.params, ∀ b ∈ p.bound, Scoped b)
      (hs : ∀ s ∈ c.supers, Scoped s) : Scoped (.applied c args)

/-- Every argument of a class is within the bound of its parameter, where parameters stand for the arguments,
and so it is in the bounds of the variables. -/
inductive Ty.WellBounded : Ty → Prop where
  | builtin {n k l b ss} : WellBounded (.builtin n k l b ss)
  | simple {n ss} : WellBounded (.simple n ss)
  | param {p} (hb : ∀ b ∈ p.bound, WellBounded b) : WellBounded (.param p)
  | applied {c args} (hargs : ∀ t ∈ args, WellBounded t)
      (hadmits : ∀ x ∈ c.params.zip args, x.1.Admits (Subst.ofArgs c.params args) x.2) :
      WellBounded (.applied c args)

variable {a b s t : Ty} {c : TypeCtor} {args : List Ty} {p q : TypeParam} {m : Subst}

namespace Ty

theorem subst_of_builtinKind? {k : BuiltinKind} (h : t.builtinKind? = some k) : t.subst m = t := by
  cases t <;> first | rfl | cases h

/-- What occurs after a substitution that binds all that is open occurs in one of the values. -/
theorem Occurs.of_subst (h : (t.subst m).Occurs p) (hopen : ∀ q ∈ t.openParams, ∃ u, m.get? q = some u) :
    ∃ n u, m.lookup n = some u ∧ u.Occurs p := by
  induction t using Ty.spine_induction with
  | builtin | simple | constructor => cases h
  | param q =>
    obtain ⟨u, hu⟩ := hopen q (by simp)
    obtain ⟨n, v, b⟩ := q
    rw [Ty.subst, show m.lookup n = some u from hu] at h
    exact ⟨n, u, hu, h⟩
  | wildcard v b ih =>
    cases b with
    | none => cases h
    | some b =>
      rw [Ty.subst] at h
      cases h with
      | wildcard h => exact ih b rfl h (by simpa using hopen)
  | nil => cases h with | arg ha => cases ha
  | cons c x xs hx hxs =>
    simp only [openParams_applied_cons, List.mem_append] at hopen
    rw [Ty.subst, substList_eq, List.map_cons] at h
    cases h with
    | arg ha h =>
      rcases List.mem_cons.mp ha with rfl | ha
      · exact hx h fun q hq => hopen q (.inl hq)
      · exact hxs (by rw [Ty.subst, substList_eq]; exact .arg ha h) fun q hq => hopen q (.inr hq)

/-- Where nothing is open nothing occurs. -/
theorem not_occurs_of_openParams_eq_nil (h : t.openParams = []) : ¬t.Occurs p := by
  intro hp
  induction hp with
  | here => cases h
  | bound => cases h
  | wildcard _ ih => exact ih (by simpa using h)
  | arg ha _ ih =>
    refine ih (List.eq_nil_iff_forall_not_mem.mpr fun q hq => ?_)
    exact List.eq_nil_iff_forall_not_mem.mp h q (mem_openParams_applied.mpr ⟨_, ha, hq⟩)

namespace Scoped

theorem isWildcard (h : t.Scoped) : t.isWildcard = false := by
  cases h <;> rfl

theorem of_mem_args (h : t.Scoped) (hs : s ∈ t.args) : s.Scoped := by
  cases h with
  | applied _ _ hargs => exact hargs s hs
  | _ => cases hs

/-- Without projections, one of the five grounds is what it takes to be a subtype. -/
theorem isSubtype_iff_below (ha : a.Scoped) (hb : b.Scoped) : a.isSubtype b ↔ a.Below b :=
  Ty.isSubtype_iff_below ha.isWildcard hb.isWildcard (fun _ hx => (ha.of_mem_args hx).isWildcard)
    fun _ hy => (hb.of_mem_args hy).isWildcard

theorem subst (h : t.Scoped) (hm : ∀ n u, m.lookup n = some u → u.Scoped) : (t.subst m).Scoped := by
  induction h with
  | builtin hs hopen => exact .builtin hs hopen
  | simple hs hopen => exact .simple hs hopen
  | @param p hb ih =>
    obtain ⟨n, v, bound⟩ := p
    rw [Ty.subst]
    split
    · exact hm n _ ‹_›
    · refine .param fun b h => ?_
      simp only [substBound_eq, Option.mem_def, Option.map_eq_some_iff] at h
      obtain ⟨b', hb', rfl⟩ := h
      exact ih b' hb'
  | applied howns hlength _ hbounds hs ih =>
    rw [Ty.subst, substList_eq]
    refine .applied howns ((List.length_map _).trans hlength) (fun u hu => ?_) hbounds hs
    obtain ⟨u', hu', rfl⟩ := List.mem_map.mp hu
    exact ih u' hu'

theorem of_mem_supertypes (h : t.Scoped) (hs : s ∈ t.supertypes) : s.Scoped := by
  cases h with
  | builtin hss | simple hss => exact hss s hs
  | param hb => exact hb s (Option.mem_toList.mp hs)
  | applied _ _ hargs _ hss =>
    obtain ⟨w, hw, rfl⟩ := List.mem_map.mp hs
    exact (hss w hw).subst fun _ u hu => hargs u (Subst.mem_of_lookup_ofArgs hu)

/-- What occurs in a supertype occurs in the type. -/
theorem occurs_of_supertype (h : t.Scoped) (hs : s ∈ t.supertypes) (hp : s.Occurs p) : t.Occurs p := by
  cases h with
  | builtin _ hopen | simple _ hopen => exact absurd hp (not_occurs_of_openParams_eq_nil (hopen s hs))
  | param => exact .bound (Option.mem_toList.mp hs) hp
  | applied howns hlength =>
    obtain ⟨w, hw, rfl⟩ := List.mem_map.mp hs
    obtain ⟨n, u, hu, hp⟩ := hp.of_subst fun q hq =>
      Subst.exists_lookup_ofArgs hlength (howns.supers w hw q hq)
    exact .arg (Subst.mem_of_lookup_ofArgs hu) hp

/-- A variable that occurs is scoped. -/
theorem of_occurs (h : t.Scoped) (hp : t.Occurs p) : (Ty.param p).Scoped := by
  induction hp with
  | here => exact h
  | bound hq _ ih => exact ih (h.of_mem_supertypes (Option.mem_toList.mpr hq))
  | wildcard => cases h
  | arg ha _ ih => exact ih (h.of_mem_args ha)

end Scoped

/-- A variable that occurs is well bounded. -/
theorem WellBounded.of_occurs (h : t.WellBounded) (hp : t.Occurs p) : (Ty.param p).WellBounded := by
  induction hp with
  | here => exact h
  | bound hq _ ih => cases h with | param hb => exact ih (hb _ hq)
  | wildcard => cases h
  | arg ha _ ih => cases h with | applied hargs => exact ih (hargs _ ha)

end Ty

/-! ## Variables for variables -/

/-- Related arguments stay related, if what is below an argument stays below it. -/
theorem ArgsRelated.subst {params : List TypeParam} {xs ys : List Ty} (h : ArgsRelated params xs ys)
    (hsub : ∀ x ∈ xs, ∀ y ∈ ys, (x.isSubtype y → (x.subst m).isSubtype (y.subst m)) ∧
      (y.isSubtype x → (y.subst m).isSubtype (x.subst m))) :
    ArgsRelated params (xs.map (Ty.subst m)) (ys.map (Ty.subst m)) := by
  refine argsRelated_iff.mpr fun i hp hx hy => ?_
  rw [List.length_map] at hx hy
  have hrelates := argsRelated_iff.mp h i hp hx hy
  obtain ⟨hcovariant, hcontravariant⟩ := hsub _ (List.getElem_mem hx) _ (List.getElem_mem hy)
  rw [List.getElem_map, List.getElem_map]
  generalize params[i].variance = v at hrelates
  cases v with
  | invariant => exact congrArg (Ty.subst m) hrelates
  | covariant => exact hcovariant hrelates
  | contravariant => exact hcontravariant hrelates

/-- Every variable of the type is replaced by a variable, with the bound that its bound becomes. -/
def Subst.KeepsBounds (m : Subst) (t : Ty) : Prop :=
  ∀ p, t.Occurs p → ∃ q, m.lookup p.name = some (.param q) ∧ q.bound = p.bound.map (Ty.subst m)

namespace Ty.Scoped

/-- **A supertype stays one** when variables are replaced. -/
theorem subst_mem_supertypes (h : t.Scoped) (hm : m.KeepsBounds t) (hs : s ∈ t.supertypes) :
    s.subst m ∈ (t.subst m).supertypes := by
  cases h with
  | builtin _ hopen | simple _ hopen =>
    rw [subst_of_openParams_eq_nil (hopen s hs)]
    exact hs
  | @param p =>
    obtain ⟨q, hlookup, hbound⟩ := hm p .here
    rw [subst_param_of_some hlookup, supertypes, hbound, Option.toList_map]
    exact List.mem_map_of_mem hs
  | applied howns hlength =>
    obtain ⟨w, hw, rfl⟩ := List.mem_map.mp hs
    rw [subst_ofArgs_subst (howns.supers w hw) hlength, Ty.subst, substList_eq]
    exact List.mem_map_of_mem hw

/-- What is replaced by a variable is no projection. -/
theorem isWildcard_subst (h : t.Scoped) (hm : m.KeepsBounds t) : (t.subst m).isWildcard = false := by
  cases h with
  | @param p =>
    obtain ⟨q, hlookup, -⟩ := hm p .here
    rw [subst_param_of_some hlookup]
    rfl
  | _ => rw [Ty.subst]; rfl

/-- No argument becomes a projection. -/
theorem isWildcard_of_mem_args_subst (h : t.Scoped) (hm : m.KeepsBounds t) (hs : s ∈ (t.subst m).args) :
    s.isWildcard = false := by
  cases h with
  | @param p =>
    obtain ⟨q, hlookup, -⟩ := hm p .here
    rw [subst_param_of_some hlookup] at hs
    cases hs
  | applied _ _ hargs =>
    rw [Ty.subst, substList_eq] at hs
    obtain ⟨a, ha, rfl⟩ := List.mem_map.mp hs
    exact (hargs a ha).isWildcard_subst fun p hp => hm p (.arg ha hp)
  | _ => rw [Ty.subst] at hs; cases hs

/-- Whatever ground there is after variables are replaced, it is enough. -/
theorem isSubtype_subst_of_below (ha : a.Scoped) (hb : b.Scoped) (hma : m.KeepsBounds a) (hmb : m.KeepsBounds b)
    (h : (a.subst m).Below (b.subst m)) : (a.subst m).isSubtype (b.subst m) :=
  (Ty.isSubtype_iff_below (ha.isWildcard_subst hma) (hb.isWildcard_subst hmb)
    (fun _ => ha.isWildcard_of_mem_args_subst hma) fun _ => hb.isWildcard_of_mem_args_subst hmb).mpr h

/-- **What is below a type stays below it when variables are replaced** by variables that keep their bounds.
The induction is on the weights of both types, as contravariant arguments swap them. -/
theorem isSubtype_subst (ha : a.Scoped) (hb : b.Scoped) (hma : m.KeepsBounds a) (hmb : m.KeepsBounds b)
    (h : a.isSubtype b) : (a.subst m).isSubtype (b.subst m) := by
  induction hw : a.weight + b.weight using Nat.strongRecOn generalizing a b with
  | _ w ih =>
    subst hw
    refine ha.isSubtype_subst_of_below hb hma hmb ?_
    cases (ha.isSubtype_iff_below hb).mp h with
    | refl h => exact .refl (h ▸ rfl)
    | bottom h => exact .bottom (by rwa [subst_of_builtinKind? (by simpa [isBottom] using h)])
    | top h => exact .top (by rwa [subst_of_builtinKind? (by simpa [isTop] using h)])
    | @args c d xs ys ha' hb' hname hlength hargs =>
      subst ha' hb'
      have hsub : ∀ x ∈ xs, ∀ y ∈ ys, (x.isSubtype y → (x.subst m).isSubtype (y.subst m)) ∧
          (y.isSubtype x → (y.subst m).isSubtype (x.subst m)) := by
        intro x hx y hy
        have hlx := weight_lt_applied (c := c) hx
        have hly := weight_lt_applied (c := d) hy
        have hx' := ha.of_mem_args hx
        have hy' := hb.of_mem_args hy
        have hmx : m.KeepsBounds x := fun p hp => hma p (.arg hx hp)
        have hmy : m.KeepsBounds y := fun p hp => hmb p (.arg hy hp)
        exact ⟨fun h => ih _ (by omega) hx' hy' hmx hmy h rfl, fun h => ih _ (by omega) hy' hx' hmy hmx h rfl⟩
      simp only [Ty.subst, substList_eq]
      exact .args rfl rfl hname (by simpa using hlength) (hargs.subst hsub)
    | up hs h =>
      have hlt := Ty.weight_lt_of_mem_supertypes hs
      exact .up (ha.subst_mem_supertypes hma hs) (ih _ (by omega) (ha.of_mem_supertypes hs) hb
        (fun p hp => hma p (ha.occurs_of_supertype hs hp)) hmb h rfl)

end Ty.Scoped

/-- **A type whose variables are replaced stays well bounded**, if they keep their bounds. -/
theorem Ty.WellBounded.subst (ht : t.WellBounded) (hscoped : t.Scoped) (hm : m.KeepsBounds t) :
    (t.subst m).WellBounded := by
  induction ht with
  | builtin => exact .builtin
  | simple => exact .simple
  | @param p hb ih =>
    obtain ⟨q, hlookup, hbound⟩ := hm p .here
    rw [subst_param_of_some hlookup]
    refine .param fun b' hb' => ?_
    rw [hbound, Option.mem_def, Option.map_eq_some_iff] at hb'
    obtain ⟨b, hb, rfl⟩ := hb'
    cases hscoped with
    | param hbscoped => exact ih b hb (hbscoped b hb) fun q hq => hm q (.bound hb hq)
  | @applied c args hargs hadmits ih =>
    cases hscoped with
    | applied howns hlength hascoped hbscoped =>
      have hma : ∀ a ∈ args, m.KeepsBounds a := fun a ha p hp => hm p (.arg ha hp)
      rw [Ty.subst, substList_eq]
      refine .applied (fun a' ha' => ?_) fun x hx b hb => ?_
      · obtain ⟨a, ha, rfl⟩ := List.mem_map.mp ha'
        exact ih a ha (hascoped a ha) (hma a ha)
      · rw [List.zip_map_right] at hx
        obtain ⟨⟨p, a⟩, hpa, rfl⟩ := List.mem_map.mp hx
        obtain ⟨hp, ha⟩ := List.of_mem_zip hpa
        rw [← subst_ofArgs_subst (howns.bounds p hp b hb) hlength]
        have hargsScoped : ∀ n u, (Subst.ofArgs c.params args).lookup n = some u → u.Scoped := fun n u hu =>
          hascoped u (Subst.mem_of_lookup_ofArgs hu)
        refine (hascoped a ha).isSubtype_subst ((hbscoped p hp b hb).subst hargsScoped) (hma a ha) (fun q hq => ?_)
          (hadmits _ hpa b hb)
        obtain ⟨n, u, hu, hq⟩ := hq.of_subst fun r hr =>
          Subst.exists_lookup_ofArgs hlength (howns.bounds p hp b hb r hr)
        exact hma u (Subst.mem_of_lookup_ofArgs hu) q hq

/-- A variable is within its effective bound. -/
theorem Ty.Scoped.isSubtype_effectiveBound (hp : (Ty.param p).Scoped) (h : p.effectiveBound = some b) :
    (Ty.param p).isSubtype b := by
  suffices ∀ n p, (Ty.param p).Scoped → p.boundWithin n = some b → b.isWildcard = false ∧ (Ty.param p).isSubtype b from
    (this 64 p hp h).2
  intro n
  induction n with
  | zero => nofun
  | succ n ih =>
    intro p hp h
    have hup : ∀ s ∈ p.bound, s.isSubtype b → b.isWildcard = false → (Ty.param p).isSubtype b :=
      fun s hs h hb => (Ty.isSubtype_iff_up rfl hb (.inl rfl)).mpr
        (.inr (.inr (.inr ⟨s, Option.mem_toList.mpr hs, h⟩)))
    rw [TypeParam.boundWithin] at h
    split at h
    · cases h
    · rename_i q hq
      obtain ⟨hb, hsub⟩ := ih q (hp.of_mem_supertypes (Option.mem_toList.mpr hq)) h
      exact ⟨hb, hup _ hq hsub hb⟩
    · rename_i u _ hu
      cases h
      have hb := (hp.of_mem_supertypes (Option.mem_toList.mpr hu)).isWildcard
      exact ⟨hb, hup b hu (Ty.isSubtype_refl b) hb⟩

end ProgramGen

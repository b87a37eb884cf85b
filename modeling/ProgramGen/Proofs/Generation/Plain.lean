import ProgramGen.Proofs.Program.Formed
import ProgramGen.Proofs.Subtyping.Catalog
import ProgramGen.Proofs.Typing.Assignable
import ProgramGen.Proofs.Typing.Closure
import ProgramGen.Names.Pool
import ProgramGen.Synthesis.Variable

/-!
# Plain types

The types that a generator asks values of. No value has the type without values, so it stands in no
argument and no bound; arrays and lists are of types without arguments or variables, so they are not
nested; and a class of the program has classes of the program above it. All that is done to types
keeps this so. In particular a type with literals has subtypes with literals only.
-/

namespace ProgramGen

/-- A class of a program as a type. -/
def Ty.isObject : Ty → Bool
  | .simple .. => true
  | .applied c _ => !c.builtin
  | _ => false

/-- A type of values without variables or arguments. -/
def Ty.isGround : Ty → Bool
  | .builtin .. => true
  | .simple .. => true
  | _ => false

/-- The name of a class of arrays or lists. -/
def IsCollection (name : String) : Prop := ∃ l : Language, name = l.arrayName ∨ name = l.arrayListName

/-- A type of values, as the generator builds them. -/
inductive Ty.Plain : Ty → Prop where
  | builtin {n k l b ss} (hk : k ≠ .void) (hs : ∀ s ∈ ss, Plain s) : Plain (.builtin n k l b ss)
  | simple {n ss} (hs : ∀ s ∈ ss, Plain s) (hobject : ∀ s ∈ ss, s.isObject) : Plain (.simple n ss)
  | param {p} (hb : ∀ b ∈ p.bound, Plain b) : Plain (.param p)
  | applied {c args} (hargs : ∀ t ∈ args, Plain t) (hlength : args.length = c.params.length)
      (hprovided : c.builtin → ∃ l : Language, l.HasClass c)
      (hname : c.builtin = false → ∀ l : Language, c.name ≠ l.arrayName)
      (hletters : c.builtin = false → ∀ p ∈ c.params, p.name ∈ capitalLetters)
      (hbounds : ∀ p ∈ c.params, ∀ b ∈ p.bound, Plain b)
      (hs : ∀ s ∈ c.supers, Plain s)
      (hobject : c.builtin = false → ∀ s ∈ c.supers, s.isObject)
      (hground : c.builtin → IsCollection c.name → ∀ t ∈ args, t.isGround) : Plain (.applied c args)

/-- A generic class that is plain wherever it is applied to arguments. -/
structure TypeCtor.IsPlain (c : TypeCtor) : Prop where
  provided : c.builtin → ∃ l : Language, l.HasClass c
  params : ∀ p ∈ c.params, (Ty.param p).Plain
  name_ne : c.builtin = false → ∀ l : Language, c.name ≠ l.arrayName
  letters : c.builtin = false → ∀ p ∈ c.params, p.name ∈ capitalLetters
  supers : ∀ s ∈ c.supers, s.Plain
  objects : c.builtin = false → ∀ s ∈ c.supers, s.isObject

/-- A type that an expression is asked for. -/
def Ty.Requested (t : Ty) : Prop := t.Plain ∨ ∃ l : Language, t = l.voidType

variable {t u : Ty} {c : TypeCtor} {args : List Ty} {p : TypeParam} {m : Subst}
variable {l : Language} {k : BuiltinKind}

/-- A ground type has nothing to substitute. -/
theorem Ty.subst_of_isGround (h : t.isGround) : t.subst m = t := by
  cases t <;> first | rfl | cases h

namespace Ty.Plain

theorem isVoid (h : t.Plain) : t.isVoid = false := by
  cases h with
  | builtin hk => simpa [Ty.isVoid, builtinKind?] using hk
  | _ => rfl

theorem isWildcard (h : t.Plain) : t.isWildcard = false := by
  cases h <;> rfl

theorem arg (h : (Ty.applied c args).Plain) (ht : t ∈ args) : t.Plain := by
  cases h with
  | applied hargs => exact hargs t ht

theorem isPlain (h : (Ty.applied c args).Plain) : c.IsPlain := by
  cases h with
  | applied _ _ hprovided hname hletters hbounds hs hobject =>
    exact ⟨hprovided, fun p hp => .param (hbounds p hp), hname, hletters, hs, hobject⟩

theorem of_mem_args (h : t.Plain) (hu : u ∈ t.args) : u.Plain := by
  cases h with
  | applied hargs => exact hargs u hu
  | _ => simp [args] at hu

theorem hasWildcards (h : t.Plain) : t.hasWildcards = false := by
  induction h with
  | applied _ _ _ _ _ _ _ _ _ ih =>
    rw [Ty.hasWildcards, hasWildcardsList_eq, List.any_eq_false]
    exact fun u hu => by simp [ih u hu]
  | _ => rfl

theorem subst (ht : t.Plain) (hm : ∀ n u, m.lookup n = some u → u.Plain) : (t.subst m).Plain := by
  induction ht with
  | builtin hk hs => exact .builtin hk hs
  | simple hs hobject => exact .simple hs hobject
  | @param p hb ih =>
    obtain ⟨n, v, bound⟩ := p
    rw [Ty.subst]
    split
    · exact hm n _ ‹_›
    · refine .param fun b h => ?_
      simp only [substBound_eq, Option.mem_def, Option.map_eq_some_iff] at h
      obtain ⟨b', hb', rfl⟩ := h
      exact ih b' hb'
  | applied hargs hlength hprovided hname hletters hbounds hs hobject hground ih =>
    rw [Ty.subst, substList_eq]
    refine .applied (fun u hu => ?_) ((List.length_map _).trans hlength) hprovided hname hletters hbounds hs hobject
      fun hb hf u hu => ?_
    · obtain ⟨u', hu', rfl⟩ := List.mem_map.mp hu
      exact ih u' hu'
    · obtain ⟨u', hu', rfl⟩ := List.mem_map.mp hu
      rw [subst_of_isGround (hground hb hf u' hu')]
      exact hground hb hf u' hu'

/-- **Plain types are fully formed.** -/
theorem formed (h : t.Plain) : t.Formed := by
  induction h with
  | builtin _ _ ih => exact .builtin ih
  | simple _ _ ih => exact .simple ih
  | param _ ih => exact .param ih
  | applied _ hlength _ _ _ _ _ _ _ ihargs ihbounds ihsupers => exact .applied hlength ihargs ihbounds ihsupers

/-- What is done to types keeps them plain. -/
theorem closed : Ty.Closed Plain where
  arg h ht := h.arg ht
  bound h hb := by
    cases h with
    | param h => exact h _ hb
  wildcard h := by cases h
  subst h hm := h.subst hm

theorem subst_all (ht : t.Plain) (hm : m.All Plain) : (t.subst m).Plain := closed.subst_all ht hm

theorem isObject_subst (h : t.isObject) : (t.subst m).isObject := by
  cases t <;> first | exact h | cases h

/-- A class inherits from classes. -/
theorem supertypes (h : t.Plain) (ht : t.isObject) (hu : u ∈ t.supertypes) : u.Plain ∧ u.isObject := by
  cases h with
  | simple hs hobject => exact ⟨hs u hu, hobject u hu⟩
  | @applied c args hargs hlength hprovided hname hletters hbounds hs hobject hground =>
    have hb : c.builtin = false := by simpa [Ty.isObject] using ht
    obtain ⟨s, hmem, rfl⟩ := List.mem_map.mp hu
    exact ⟨(hs s hmem).subst_all (.ofArgs hargs), isObject_subst (hobject hb s hmem)⟩
  | _ => cases ht

/-- Everything above a class is a class. -/
theorem allSupertypes (h : t.Plain) (ht : t.isObject) (hu : u ∈ t.allSupertypes) :
    u.Plain ∧ u.isObject := by
  induction Ty.mem_allSupertypes.mp hu with
  | refl => exact ⟨h, ht⟩
  | tail hup hs ih =>
    obtain ⟨hplain, hobject⟩ := ih (Ty.mem_allSupertypes.mpr hup)
    exact hplain.supertypes hobject hs

/-! ## Types with literals -/

/-- **No class of the program is below a type with literals.** -/
theorem isSubtype_of_isObject {s : Session} (h : t.Plain) (ht : t.isObject) (hu : u.Plain)
    (hconstant : s.hasConstant u) : t.isSubtype u = false := by
  have hnot : ∀ a : Ty, a.Plain → a.isObject → (∀ b ∈ a.supertypes, b.isSubtype u = false) →
      a.isSubtype u = false := by
    intro a ha hobject hsupers
    refine Bool.eq_false_iff.mpr fun hsub => ?_
    rcases (isSubtype_iff_below ha.isWildcard hu.isWildcard (fun x hx => (ha.of_mem_args hx).isWildcard)
      fun y hy => (hu.of_mem_args hy).isWildcard).mp hsub with
      rfl | h | h | ⟨rfl, rfl, hname, -, -⟩ | ⟨hmem, h⟩
    · cases a <;> simp_all [isObject, Session.hasConstant]
    · cases a <;> simp_all [isObject, isBottom, builtinKind?]
    · cases u with
      | builtin n k l p ss =>
        obtain rfl : k = .any := by simpa [isTop, builtinKind?] using h
        cases hconstant
      | _ => simp [isTop, builtinKind?] at h
    · simp only [Session.hasConstant, Bool.and_eq_true, beq_iff_eq] at hconstant
      cases ha with
      | applied _ _ _ hne =>
        exact hne (by simpa [isObject] using hobject) s.language (hname.trans hconstant.2)
    · rw [hsupers _ hmem] at h
      cases h
  have hall : t.isSubtype u = false ∧ ∀ m : Subst, m.All Plain → (t.subst m).isSubtype u = false := by
    induction h with
    | @simple n ss hs hobject ih =>
      have hself := hnot (.simple n ss) (.simple hs hobject) rfl fun b hb =>
        (ih b hb (hobject b hb)).1
      exact ⟨hself, fun m _ => by rwa [subst_of_isGround rfl]⟩
    | @applied c args hargs hlength hprovided hname hletters hbounds hs hobject hground _ _ ih =>
      have hb : c.builtin = false := by simpa [isObject] using ht
      have hsupers : ∀ args' : List Ty, (∀ a ∈ args', a.Plain) →
          ∀ b ∈ (Ty.applied c args').supertypes, b.isSubtype u = false := by
        intro args' hargs' b hmem
        obtain ⟨s, hs', rfl⟩ := List.mem_map.mp hmem
        exact (ih s hs' (hobject hb s hs')).2 _ (.ofArgs hargs')
      have happlied : (Ty.applied c args).Plain :=
        .applied hargs hlength hprovided hname hletters hbounds hs hobject hground
      refine ⟨hnot _ happlied ht (hsupers args hargs), fun m hm => ?_⟩
      have hsubst := happlied.subst_all hm
      rw [Ty.subst] at hsubst ⊢
      exact hnot _ hsubst ht (hsupers _ fun a ha => hsubst.arg ha)
    | _ => cases ht
  exact hall.1

end Ty.Plain

/-! ## The language's own types -/

theorem Language.plain_anyType (l : Language) : l.anyType.Plain := .builtin nofun nofun

theorem Language.plain_numberType (l : Language) : l.numberType.Plain :=
  .builtin nofun fun s hs => by
    rw [List.mem_singleton.mp hs]
    exact l.plain_anyType

/-- What a type of the language inherits. -/
theorem Language.plain_supertypes_builtin (l : Language) (k : BuiltinKind) :
    ∀ s ∈ (l.builtin k).supertypes, s.Plain := fun s hs => by
  rcases mem_supertypes_builtin hs with rfl | rfl
  · exact l.plain_numberType
  · exact l.plain_anyType

theorem Language.plain_builtin (l : Language) (hk : k ≠ .void) : (l.builtin k).Plain := by
  have hs := l.plain_supertypes_builtin k
  cases l <;> cases k <;> first | exact absurd rfl hk | exact .builtin (by decide) hs

theorem Language.requested_voidType (l : Language) : l.voidType.Requested := .inr ⟨l, rfl⟩

theorem Language.isVoid_voidType (l : Language) : l.voidType.isVoid := by
  cases l <;> rfl

theorem Ty.Requested.isVoid_or_plain (h : t.Requested) : t.isVoid ∨ t.Plain :=
  h.symm.imp_left fun ⟨l, hl⟩ => hl ▸ l.isVoid_voidType

theorem Ty.Requested.plain (h : t.Requested) (ht : t.isVoid = false) : t.Plain :=
  h.resolve_right fun ⟨l, hl⟩ => by
    rw [hl, l.isVoid_voidType] at ht
    cases ht

theorem Language.isGround_builtin (l : Language) (k : BuiltinKind) : (l.builtin k).isGround := by
  cases l <;> cases k <;> rfl

theorem Language.HasClass.isPlain (h : l.HasClass c) : c.IsPlain where
  provided _ := ⟨l, h⟩
  params p hp := by
    have hbound : p.bound = none := by
      cases h with
      | function n =>
        simp only [functionCtor, List.mem_append, List.mem_map, List.mem_singleton] at hp
        rcases hp with ⟨i, -, rfl⟩ | rfl <;> rfl
      | _ => rw [List.mem_singleton.mp hp]
    exact .param fun b hb => by
      rw [hbound] at hb
      cases hb
  name_ne hb := by cases h <;> cases hb
  letters hb := by cases h <;> cases hb
  supers s hs := by
    rw [h.supers_eq, List.mem_singleton] at hs
    exact hs ▸ l.plain_anyType
  objects hb := by cases h <;> cases hb

/-- Arrays and lists have one parameter. -/
theorem Language.HasClass.length_params (h : l.HasClass c) (hname : IsCollection c.name) : c.params.length = 1 := by
  cases h with
  | function n =>
    obtain ⟨l', hname | hname⟩ := hname <;>
      exact absurd hname (l.functionCtor_name_ne n (by cases l' <;> decide))
  | _ => rfl

/-- The types that values are declared with. -/
theorem Language.mem_valueTypes_cases (h : t ∈ l.valueTypes) :
    (∃ k, k ≠ .void ∧ k ≠ .nothing ∧ t = l.builtin k) ∨ t = .constructor l.arrayCtor := by
  simp only [valueTypes, numberTypes, List.mem_append, List.mem_cons, List.mem_map, List.not_mem_nil,
    or_false] at h
  rcases h with ((rfl | rfl) | ⟨k, (rfl | rfl | rfl | rfl | rfl | rfl), rfl⟩) | rfl | rfl | rfl | rfl
  · exact .inl ⟨.any, by decide, by decide, rfl⟩
  · exact .inl ⟨.number, by decide, by decide, by cases l <;> rfl⟩
  all_goals first | exact .inr rfl | exact .inl ⟨_, by decide, by decide, rfl⟩

theorem Ty.Requested.formed (h : t.Requested) : t.Formed := by
  rcases h with h | ⟨l, rfl⟩
  · exact h.formed
  · have hs := fun s hs => (l.plain_supertypes_builtin .void s hs).formed
    cases l <;> exact .builtin hs

theorem Language.isGround_voidType (l : Language) : l.voidType.isGround := l.isGround_builtin .void

theorem Ty.Requested.subst_plain (ht : t.Requested) (hm : ∀ n u, m.lookup n = some u → u.Plain) :
    (t.subst m).Requested ∧ (t.subst m).isVoid = t.isVoid := by
  rcases ht with ht | ⟨l, rfl⟩
  · exact ⟨.inl (ht.subst hm), (ht.subst hm).isVoid.trans ht.isVoid.symm⟩
  · rw [Ty.subst_of_isGround l.isGround_voidType]
    exact ⟨l.requested_voidType, rfl⟩

/-- The type of functions on formed types is formed, also of those that give nothing back. -/
theorem Language.formed_functionType {params : List Ty} {ret : Ty} (hparams : ∀ t ∈ params, t.Formed)
    (hret : ret.Formed) : (l.functionType params ret).Formed := by
  refine .applied (by simp [functionCtor]) (fun t ht => ?_) (fun p hp b hb => ?_) fun t ht => ?_
  · rcases List.mem_append.mp ht with ht | ht
    · exact hparams t ht
    · exact List.mem_singleton.mp ht ▸ hret
  · cases (HasClass.function (l := l) params.length).isPlain.params p hp with
    | param h => exact (h b hb).formed
  · rw [List.mem_singleton.mp ht]
    exact l.plain_anyType.formed

/-! ## Generic classes -/

namespace TypeCtor.IsPlain

theorem bounds (hc : c.IsPlain) : ∀ p ∈ c.params, ∀ b ∈ p.bound, b.Plain := fun p hp => by
  cases hc.params p hp with
  | param hb => exact hb

/-- **A generic class is applied to as many plain types as it has parameters.** -/
theorem applied (hc : c.IsPlain) (hargs : ∀ t ∈ args, t.Plain) (hlength : args.length = c.params.length)
    (hground : c.builtin → IsCollection c.name → ∀ t ∈ args, t.isGround) : (Ty.applied c args).Plain :=
  .applied hargs hlength hc.provided hc.name_ne hc.letters hc.bounds hc.supers hc.objects hground

end TypeCtor.IsPlain

/-! ## Found subtypes -/

/-- A generic class is found below a plain type without its arguments, or as a plain type. -/
theorem plain_of_subtypeInstance? (hc : c.IsPlain) (hobject : c.builtin = false) (ht : t.Plain)
    (h : subtypeInstance? c t = some u) : u.Plain ∨ u = .constructor c := by
  have hplain : ∀ args : List Ty, (∀ a ∈ args, a.Plain) → args.length = c.params.length →
      (Ty.applied c args).Plain := fun args h hlength =>
    hc.applied h hlength fun hb => by rw [hobject] at hb; cases hb
  unfold subtypeInstance? at h
  split at h
  · exact .inr (Option.some.inj h).symm
  · split at h
    · obtain ⟨-, h⟩ := Option.ite_none_right_eq_some.mp h
      cases h
      exact .inl ht
    · rcases eq_of_subtypeFrom? h with rfl | ⟨-, s, hs, m, hm, hall, rfl⟩
      · exact .inr rfl
      · have hown : c.ownInstance.Plain := hplain _ (fun a ha => by
          obtain ⟨p, hp, rfl⟩ := List.mem_map.mp ha
          exact hc.params p hp) (List.length_map _)
        have habove := (hown.allSupertypes (by simp [TypeCtor.ownInstance, TypeCtor.apply, Ty.isObject,
          hobject]) (List.mem_of_mem_drop hs)).1
        refine .inl (hplain _ (fun a ha => ?_) (List.filterMap_length_eq_length.mpr (List.all_eq_true.mp hall)))
        obtain ⟨p, -, hp⟩ := List.mem_filterMap.mp ha
        exact (Ty.Plain.closed.unify? ht habove hm).lookup hp

/-- A generic class is found below a type with literals only without its arguments. -/
theorem eq_constructor_of_subtypeInstance? {s : Session} (hc : c.IsPlain) (hobject : c.builtin = false)
    (ht : t.Plain) (hconstant : s.hasConstant t) (h : subtypeInstance? c t = some u) :
    u = .constructor c := by
  have hplain := plain_of_subtypeInstance? hc hobject ht h
  unfold subtypeInstance? at h
  split at h
  · exact (Option.some.inj h).symm
  · split at h
    · rename_i hname
      exfalso
      cases t with
      | applied d xs =>
        simp only [Session.hasConstant, Bool.and_eq_true, beq_iff_eq] at hconstant
        exact hc.name_ne hobject s.language (hname.trans hconstant.2)
      | _ => simp [Ty.isApplied] at h
    · rcases eq_of_subtypeFrom? h with rfl | ⟨hsub, s', -, m, -, -, rfl⟩
      · rfl
      · rcases hplain with hplain | hconstructor
        · have := hplain.isSubtype_of_isObject (by simp [TypeCtor.apply, Ty.isObject, hobject]) ht
            hconstant
          rw [hsub] at this
          cases this
        · cases hconstructor

/-- A value type below a type with literals has literals. -/
theorem Language.hasConstant_of_isSubtype {s : Session} (hk : k ≠ .void) (hu : u.Plain)
    (hconstant : s.hasConstant u) (h : (l.builtin k).isSubtype u) (hbottom : k ≠ .nothing) :
    s.hasConstant (l.builtin k) ∧ (l.builtin k).isApplied = false := by
  have hany : l.anyType.isSubtype u = false := by
    refine Bool.eq_false_iff.mpr fun hsub => ?_
    have hkind : u.builtinKind? ≠ some .any := by
      cases u with
      | builtin n k l p ss =>
        simp only [Ty.builtinKind?, ne_eq, Option.some.injEq]
        rintro rfl
        cases hconstant
      | _ => simp [Ty.builtinKind?]
    rcases (Ty.isSubtype_iff_up rfl hu.isWildcard (.inl rfl)).mp hsub with h | h | h | ⟨s, hs, -⟩
    · exact hkind (h ▸ rfl)
    · simp [anyType, Ty.isBottom, Ty.builtinKind?] at h
    · exact hkind (by simpa [Ty.isTop] using h)
    · cases hs
  cases k with
  | any => rw [show l.builtin .any = l.anyType from rfl, hany] at h; cases h
  | void => exact absurd rfl hk
  | nothing => exact absurd rfl hbottom
  | _ => cases l <;> exact ⟨rfl, rfl⟩

end ProgramGen

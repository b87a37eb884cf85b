import ProgramGen.Proofs.Subtyping.Relation
import ProgramGen.Catalog.Basic
import Mathlib.Data.List.Induction

/-!
# Class tables

The types that a consistent program can speak of. A class table says which generic classes there
are; a type over it is built from those classes with the right number of arguments, from the
builtin types of the catalogs, from classes without parameters and from variables, and the same
holds of its bounds and of everything it inherits. A table is consistent when a class is known by
its name and what it inherits varies with its parameters the way they are declared.

Types over a table are closed under what the subtype relation does to them: to take an argument, to
take a supertype, and to substitute.
-/

namespace ProgramGen

/-- What types are built from. -/
structure Vocabulary where
  /-- The languages whose builtin types there are. -/
  languages : Language → Prop
  /-- The generic classes. -/
  classes : TypeCtor → Prop
  /-- Generic classes may stand without their arguments. -/
  bare : Prop

/-- The builtin types of a vocabulary, unboxed forms included. -/
def Vocabulary.Provides (V : Vocabulary) (t : Ty) : Prop :=
  ∃ l, V.languages l ∧ ∃ k : BuiltinKind, t = l.builtin k ∨ l.primitive? k = some t

/-- The types without wildcards over a vocabulary. -/
inductive Ty.Over (V : Vocabulary) : Ty → Prop where
  | builtin {n k l p ss} (h : V.Provides (.builtin n k l p ss)) : Over V (.builtin n k l p ss)
  | simple {n ss} (hs : ∀ s ∈ ss, Over V s) : Over V (.simple n ss)
  | param {p} (hb : ∀ b ∈ p.bound, Over V b) : Over V (.param p)
  | constructor {c} (hbare : V.bare) (hc : V.classes c) : Over V (.constructor c)
  | applied {c args} (hc : V.classes c) (hlength : args.length = c.params.length)
      (hargs : ∀ t ∈ args, Over V t) : Over V (.applied c args)

/-! ## Positions -/

/-- The position of what stands at a parameter of variance `v` in a type at position `pos`. -/
def Variance.within (pos : Variance) : Variance → Variance
  | .invariant => .invariant
  | .covariant => pos
  | .contravariant =>
    match pos with
    | .invariant => .invariant
    | .covariant => .contravariant
    | .contravariant => .covariant

/-- The positions where a parameter of a variance may be mentioned. -/
def Variance.Allows (v pos : Variance) : Prop := v = .invariant ∨ v = pos

/-- The type mentions only the given parameters, each in positions that its variance allows. -/
inductive Ty.VariesIn (params : List TypeParam) : Variance → Ty → Prop where
  | builtin {pos n k l p ss} : VariesIn params pos (.builtin n k l p ss)
  | simple {pos n ss} : VariesIn params pos (.simple n ss)
  | param {pos p} (hown : ∃ q ∈ params, q.name = p.name)
      (hpos : ∀ q ∈ params, q.name = p.name → q.variance.Allows pos) :
      VariesIn params pos (.param p)
  | constructor {pos c} : VariesIn params pos (.constructor c)
  | applied {pos c args}
      (hargs : ∀ x ∈ c.params.zip args, VariesIn params (pos.within x.1.variance) x.2) :
      VariesIn params pos (.applied c args)

/-! ## Tables -/

/-- A vocabulary whose generic classes are consistent. -/
structure ClassTable extends Vocabulary where
  eq_of_name : ∀ c d, classes c → classes d → c.name = d.name → c = d
  supers_over : ∀ c, classes c → ∀ s ∈ c.supers, s.Over toVocabulary
  supers_vary : ∀ c, classes c → ∀ s ∈ c.supers, s.VariesIn c.params .covariant

variable {V : Vocabulary} {T : ClassTable} {t s : Ty} {c : TypeCtor} {args : List Ty} {m : Subst}
variable {l : Language} {k : BuiltinKind}

/-! ## Types over a vocabulary -/

theorem Ty.Over.isWildcard (h : t.Over V) : t.isWildcard = false := by
  cases h <;> rfl

theorem Ty.Over.hasWildcards (h : t.Over V) : t.hasWildcards = false := by
  induction h with
  | applied _ _ _ ih =>
    rw [Ty.hasWildcards, hasWildcardsList_eq, List.any_eq_false]
    exact fun u hu => by simp [ih u hu]
  | _ => rfl

theorem Ty.Over.arg (h : (Ty.applied c args).Over V) (ht : t ∈ args) : t.Over V := by
  cases h with
  | applied _ _ hargs => exact hargs t ht

theorem Ty.Over.of_mem_args (h : s.Over V) (ht : t ∈ s.args) : t.Over V := by
  cases h with
  | applied _ _ hargs => exact hargs t ht
  | _ => simp [args] at ht

theorem Ty.Over.mem_classes (h : (Ty.applied c args).Over V) : V.classes c := by
  cases h with
  | applied hc _ _ => exact hc

theorem Ty.Over.length_args (h : (Ty.applied c args).Over V) : args.length = c.params.length := by
  cases h with
  | applied _ hlength _ => exact hlength

/-- A reference form of the catalog is written as a builtin type. -/
theorem Language.builtin_eq (l : Language) (k : BuiltinKind) :
    ∃ n k' p ss, l.builtin k = .builtin n k' l p ss := by
  cases l <;> cases k <;> exact ⟨_, _, _, _, rfl⟩

theorem Ty.over_builtin (hl : V.languages l) (k : BuiltinKind) : (l.builtin k).Over V := by
  obtain ⟨n, k', p, ss, h⟩ := l.builtin_eq k
  rw [h]
  exact .builtin ⟨l, hl, k, .inl h.symm⟩

theorem Ty.over_primitive (hl : V.languages l) (h : l.primitive? k = some t) : t.Over V := by
  have h' := h
  obtain ⟨n, -, rfl⟩ := Option.map_eq_some_iff.mp h'
  exact .builtin ⟨l, hl, k, .inr h⟩

/-- A builtin type inherits at most a number type and the top. -/
theorem Language.mem_supertypes_builtin (h : s ∈ (l.builtin k).supertypes) :
    s = l.numberType ∨ s = l.anyType := by
  cases l <;> cases k <;>
    simp_all [builtin, hasBottom, anyType, numberType, Ty.supertypes, BuiltinKind.isNumeric,
      BuiltinKind.isIntegral]

theorem Language.supertypes_primitive (h : l.primitive? k = some t) : t.supertypes = [] := by
  obtain ⟨n, -, rfl⟩ := Option.map_eq_some_iff.mp h
  rfl

theorem Vocabulary.Provides.supertypes (h : V.Provides t) (hs : s ∈ t.supertypes) :
    V.Provides s := by
  obtain ⟨l, hl, k, rfl | h⟩ := h
  · rcases Language.mem_supertypes_builtin hs with rfl | rfl
    · exact ⟨l, hl, .number, .inl rfl⟩
    · exact ⟨l, hl, .any, .inl rfl⟩
  · simp [Language.supertypes_primitive h] at hs

theorem Vocabulary.Provides.over (h : V.Provides t) : t.Over V := by
  obtain ⟨l, hl, k, rfl | h⟩ := h
  · exact Ty.over_builtin hl k
  · exact Ty.over_primitive hl h

/-- The top type inherits nothing. -/
theorem Vocabulary.Provides.supertypes_top (h : V.Provides t) (ht : t.isTop) :
    t.supertypes = [] := by
  obtain ⟨l, -, k, rfl | h⟩ := h
  · cases l <;> cases k <;> first | rfl | simp [Language.builtin, Language.numberType,
      Ty.isTop, Ty.builtinKind?] at ht
  · exact Language.supertypes_primitive h

/-! ## Closure -/

/-- **To substitute types over a table gives a type over it.** -/
theorem Ty.Over.subst (ht : t.Over V)
    (hm : ∀ n u, m.lookup n = some u → u.Over V) : (t.subst m).Over V := by
  induction ht with
  | builtin h =>
    rw [Ty.subst]
    exact .builtin h
  | simple hs =>
    rw [Ty.subst]
    exact .simple hs
  | @param p hb ih =>
    obtain ⟨n, v, bound⟩ := p
    rw [Ty.subst]
    split
    · exact hm n _ ‹_›
    · refine .param fun b h => ?_
      simp only [substBound_eq, Option.mem_def, Option.map_eq_some_iff] at h
      obtain ⟨b', hb', rfl⟩ := h
      exact ih b' hb'
  | constructor hbare hc =>
    rw [Ty.subst]
    exact .constructor hbare hc
  | applied hc hlength hargs ih =>
    rw [Ty.subst, substList_eq]
    refine .applied hc (by simpa using hlength) fun u hu => ?_
    obtain ⟨u', hu', rfl⟩ := List.mem_map.mp hu
    exact ih u' hu'

theorem Subst.ofList_append_singleton (L : List (TypeParam × Ty)) (x : TypeParam × Ty) :
    ofList (L ++ [x]) = (ofList L).insert x.1 x.2 := by
  simp [ofList]

/-- A binding that is found was listed. -/
theorem Subst.mem_of_lookup_ofList {L : List (TypeParam × Ty)} {n : String}
    (h : (ofList L).lookup n = some t) : ∃ x ∈ L, x.1.name = n ∧ x.2 = t := by
  induction L using List.reverseRecOn with
  | nil => simp [ofList, empty, lookup] at h
  | append_singleton L x ih =>
    rw [ofList_append_singleton, lookup_insert] at h
    split at h
    · exact ⟨x, by simp, ‹_›, Option.some.inj h⟩
    · obtain ⟨y, hy, hn, hyt⟩ := ih h
      exact ⟨y, by simp [hy], hn, hyt⟩

/-- What arguments bind is among the arguments. -/
theorem Subst.mem_of_lookup_ofArgs {ps : List TypeParam} {n : String}
    (h : (ofArgs ps args).lookup n = some t) : t ∈ args := by
  obtain ⟨x, hx, -, rfl⟩ := mem_of_lookup_ofList h
  exact (List.of_mem_zip hx).2

/-- **A supertype of a type over a table is over it.** -/
theorem ClassTable.over_supertypes (T : ClassTable) (ht : t.Over T.toVocabulary)
    (hs : s ∈ t.supertypes) : s.Over T.toVocabulary := by
  cases ht with
  | builtin h => exact (h.supertypes hs).over
  | simple h => exact h s hs
  | param hb => exact hb s (Option.mem_toList.mp hs)
  | constructor _ hc => exact T.supers_over _ hc s hs
  | applied hc _ hargs =>
    obtain ⟨u, hu, rfl⟩ := List.mem_map.mp hs
    exact (T.supers_over _ hc u hu).subst fun n v hv =>
      hargs v (Subst.mem_of_lookup_ofArgs hv)

/-- A larger vocabulary has all types of a smaller one. -/
theorem Ty.Over.mono {V' : Vocabulary} (ht : t.Over V)
    (hl : ∀ l, V.languages l → V'.languages l) (hc : ∀ c, V.classes c → V'.classes c)
    (hbare : V.bare → V'.bare) : t.Over V' := by
  induction ht with
  | builtin h =>
    obtain ⟨l, hl', k, h⟩ := h
    exact .builtin ⟨l, hl l hl', k, h⟩
  | simple _ ih => exact .simple ih
  | param _ ih => exact .param ih
  | constructor hb hc' => exact .constructor (hbare hb) (hc _ hc')
  | applied hc' hlength _ ih => exact .applied (hc _ hc') hlength ih

end ProgramGen

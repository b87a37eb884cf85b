import ProgramGen.Class.Subtypes
import ProgramGen.Proofs.Subtyping.Transitive
import ProgramGen.Proofs.Typing.Binding

/-!
# Assignable types

Values of a subtype are assignable to whatever values of the type are, unboxed forms included. The
types without values and the function types of a language are known by what they are asked for, and
what is found below a type among classes and builtin types is below it.
-/

namespace ProgramGen

variable {V : Vocabulary} {T : ClassTable} {a b d t u : Ty} {c : TypeCtor} {l l' : Language}
variable {k k' : BuiltinKind}

/-! ## Unboxed forms -/

theorem Language.isPrimitive_builtin (l : Language) (k : BuiltinKind) :
    (l.builtin k).isPrimitive = false := by
  cases l <;> cases k <;> rfl

theorem Language.isBottom_builtin (l : Language) (h : k ≠ .nothing) :
    (l.builtin k).isBottom = false := by
  cases l <;> cases k <;> first | rfl | exact absurd rfl h

theorem Language.builtinKind_primitive (h : l.primitive? k = some t) : t.builtinKind? = some k := by
  obtain ⟨n, -, rfl⟩ := Option.map_eq_some_iff.mp h
  rfl

theorem Language.boxed_primitive (h : l.primitive? k = some t) : t.boxed = l.builtin k := by
  obtain ⟨n, -, rfl⟩ := Option.map_eq_some_iff.mp h
  rfl

/-- Neither the top nor the bottom type has an unboxed form. -/
theorem Language.kind_of_primitive (h : l.primitive? k = some t) : k ≠ .any ∧ k ≠ .nothing := by
  obtain ⟨n, hn, -⟩ := Option.map_eq_some_iff.mp h
  constructor <;> rintro rfl <;> cases l <;> cases hn

/-- An unboxed type is the unboxed form of a builtin type. -/
theorem Ty.Over.exists_primitive (h : t.Over V) (hp : t.isPrimitive) :
    ∃ l k, V.languages l ∧ l.primitive? k = some t := by
  cases h with
  | builtin h =>
    obtain ⟨l, hl, k, h | h⟩ := h
    · rw [h, Language.isPrimitive_builtin] at hp
      cases hp
    · exact ⟨l, k, hl, h⟩
  | _ => simp [isPrimitive] at hp

theorem Ty.boxed_eq_self (h : t.isPrimitive = false) : t.boxed = t := by
  cases t with
  | builtin n k l p ss =>
    cases p with
    | false => rfl
    | true => cases h
  | _ => rfl

theorem Ty.Over.boxed (h : t.Over V) : t.boxed.Over V := by
  cases hp : t.isPrimitive with
  | false => rwa [boxed_eq_self hp]
  | true =>
    obtain ⟨l, k, hl, hk⟩ := h.exists_primitive hp
    rw [Language.boxed_primitive hk]
    exact over_builtin hl k

/-- What is below an unboxed type is that type or the bottom type, unless a class inherits from
it. -/
theorem Ty.Over.isSubtype_primitive (ha : a.Over V) (hb : b.Over V) (hp : b.isPrimitive)
    (h : a.isSubtype b) : a = b ∨ a.isBottom ∨ ∃ s ∈ a.supertypes, s.isSubtype b := by
  obtain ⟨l, k, -, hk⟩ := hb.exists_primitive hp
  rcases (ha.isSubtype_iff_below hb).mp h with rfl | h | h | ⟨-, rfl, -, -, -⟩ | ⟨hs, h⟩
  · exact .inl rfl
  · exact .inr (.inl h)
  · simp [isTop, Language.builtinKind_primitive hk, (Language.kind_of_primitive hk).1] at h
  · cases hp
  · exact .inr (.inr ⟨_, hs, h⟩)

/-- A builtin type in its reference form is below no unboxed type. -/
theorem Language.not_isSubtype_primitive (hl : V.languages l) (hk : (l.builtin k).isBottom = false)
    (hb : b.Over V) (hp : b.isPrimitive) : (l.builtin k).isSubtype b = false := by
  have hstep : ∀ k, (l.builtin k).isBottom = false →
      (∀ s ∈ (l.builtin k).supertypes, s.isSubtype b = false) → (l.builtin k).isSubtype b = false := by
    intro k hk hs
    refine Bool.eq_false_iff.mpr fun h => ?_
    rcases (Ty.over_builtin hl k).isSubtype_primitive hb hp h with rfl | h | ⟨s, hmem, h⟩
    · rw [isPrimitive_builtin] at hp
      cases hp
    · rw [hk] at h
      cases h
    · rw [hs s hmem] at h
      cases h
  have hany : (l.builtin .any).isSubtype b = false :=
    hstep .any (by cases l <;> rfl) (by cases l <;> simp [builtin, anyType, Ty.supertypes])
  have hnumber : (l.builtin .number).isSubtype b = false := by
    have hup : (l.builtin .number).supertypes = [l.builtin .any] := by cases l <;> rfl
    refine hstep .number (by cases l <;> rfl) fun s hs => ?_
    rw [hup, List.mem_singleton] at hs
    exact hs ▸ hany
  refine hstep k hk fun s hs => ?_
  rcases mem_supertypes_builtin hs with rfl | rfl
  · exact hnumber
  · exact hany

/-! ## Assignable types -/

theorem Ty.isAssignable_iff :
    a.isAssignable b ↔
      a.isSubtype b ∨ ((a.isPrimitive ∨ b.isPrimitive) ∧ a.boxed.isSubtype b.boxed) := by
  simp [isAssignable]

theorem Ty.isAssignable_of_isSubtype (h : a.isSubtype b) : a.isAssignable b :=
  isAssignable_iff.mpr (.inl h)

@[simp]
theorem Ty.isAssignable_refl (a : Ty) : a.isAssignable a :=
  isAssignable_of_isSubtype (isSubtype_refl a)

/-- **What is assignable to a subtype is assignable.** -/
theorem Ty.isAssignable_trans (T : ClassTable) (ha : a.Over T.toVocabulary)
    (hb : b.Over T.toVocabulary) (hd : d.Over T.toVocabulary) (hab : a.isAssignable b)
    (hbd : b.isSubtype d) : a.isAssignable d := by
  rcases isAssignable_iff.mp hab with hab | ⟨hp, hboxed⟩
  · exact isAssignable_of_isSubtype (isSubtype_trans T ha hb hd hab hbd)
  cases hbp : b.isPrimitive with
  | true =>
    -- An unboxed type inherits nothing, so it is the type in question, or the top type is.
    obtain ⟨l, k, hl, hk⟩ := hb.exists_primitive hbp
    rcases (hb.isSubtype_iff_below hd).mp hbd with rfl | h | h | ⟨rfl, -, -, -, -⟩ | ⟨hs, -⟩
    · exact hab
    · simp [isBottom, Language.builtinKind_primitive hk, (Language.kind_of_primitive hk).2] at h
    · exact isAssignable_of_isSubtype ((ha.isSubtype_iff_below hd).mpr (.top h))
    · cases hbp
    · simp [Language.supertypes_primitive hk] at hs
  | false =>
    have hap : a.isPrimitive := by simpa [hbp] using hp
    rw [boxed_eq_self hbp] at hboxed
    have hbox : a.boxed.isSubtype d := isSubtype_trans T ha.boxed hb hd hboxed hbd
    cases hdp : d.isPrimitive with
    | false => exact isAssignable_iff.mpr (.inr ⟨.inl hap, by rwa [boxed_eq_self hdp]⟩)
    | true =>
      obtain ⟨l, k, hl, hk⟩ := ha.exists_primitive hap
      have hbottom := l.isBottom_builtin (Language.kind_of_primitive hk).2
      rw [Language.boxed_primitive hk, Language.not_isSubtype_primitive hl hbottom hd hdp] at hbox
      cases hbox

/-! ## Types known by what is asked -/

/-- A language has one type without values. -/
theorem Ty.Over.eq_voidType (h : t.Over V) (hl : ∀ l', V.languages l' → l' = l) (hv : t.isVoid) :
    t = l.voidType := by
  cases h with
  | builtin h =>
    obtain ⟨l', hl', k, h | h⟩ := h
    · obtain rfl := hl l' hl'
      rw [h] at hv ⊢
      cases l' <;> cases k <;> first | rfl | simp [Language.builtin, Language.hasBottom,
        Language.anyType, Language.numberType, isVoid, builtinKind?] at hv
    · rw [isVoid, Language.builtinKind_primitive h, beq_iff_eq, Option.some.injEq] at hv
      subst hv
      cases l' <;> cases h
  | _ => simp [isVoid, builtinKind?] at hv

/-- A function type is its class applied to the types of its signature. -/
theorem Ty.exists_of_functionSignature? {params : List Ty} {ret : Ty}
    (h : t.functionSignature? = some (params, ret)) :
    ∃ c : TypeCtor, c.isFunction ∧ t = .applied c (params ++ [ret]) := by
  cases t with
  | applied c args =>
    rw [functionSignature?] at h
    obtain ⟨hc, h⟩ := Option.ite_none_right_eq_some.mp h
    obtain ⟨last, hlast, h⟩ := Option.map_eq_some_iff.mp h
    cases h
    obtain ⟨ys, rfl⟩ := List.getLast?_eq_some_iff.mp hlast
    exact ⟨c, hc, by rw [List.dropLast_concat]⟩
  | _ => cases h

theorem Ty.Over.functionSignature? {params : List Ty} {ret : Ty} (ht : t.Over V)
    (h : t.functionSignature? = some (params, ret)) : (∀ p ∈ params, p.Over V) ∧ ret.Over V := by
  obtain ⟨c, -, rfl⟩ := exists_of_functionSignature? h
  exact ⟨fun p hp => ht.arg (List.mem_append_left _ hp), ht.arg (by simp)⟩

/-! ## Found subtypes -/

/-- **Everything above a type over a table is over it.** -/
theorem ClassTable.over_allSupertypes (T : ClassTable) (ht : t.Over T.toVocabulary)
    (h : u ∈ t.allSupertypes) : u.Over T.toVocabulary := by
  induction Ty.mem_allSupertypes.mp h with
  | refl => exact ht
  | tail hup hs ih => exact T.over_supertypes (ih (Ty.mem_allSupertypes.mpr hup)) hs

/-- A class that inherits the target is found bare, or with the arguments that unification finds. -/
theorem eq_of_subtypeFrom? {above : List Ty} (h : subtypeFrom? c t above = some u) :
    u = .constructor c ∨ (u.isSubtype t ∧ ∃ s ∈ above, ∃ m, t.unify? s = some m ∧
      c.params.all m.contains ∧ u = c.apply (c.params.filterMap m.get?)) := by
  induction above with
  | nil => cases h
  | cons s rest ih =>
    rw [subtypeFrom?] at h
    split at h
    · obtain h | ⟨h, s, hs, hm⟩ := ih h
      · exact .inl h
      · exact .inr ⟨h, s, List.mem_cons_of_mem _ hs, hm⟩
    · split at h
      · obtain ⟨-, h⟩ := Option.ite_none_right_eq_some.mp h
        exact .inl (Option.some.inj h).symm
      · split at h
        · cases h
        · split at h
          · cases h
          · rename_i m hm
            split at h
            · obtain ⟨hsub, h⟩ := Option.ite_none_right_eq_some.mp h
              cases h
              exact .inr ⟨hsub, s, List.mem_cons_self, m, hm, ‹_›, rfl⟩
            · cases h

/-- A found subtype is a class that still lacks its arguments, or it is below the target. -/
def Ty.FoundBelow (V : Vocabulary) (t u : Ty) : Prop :=
  (∃ c, V.classes c ∧ u = .constructor c) ∨ (u.Over V ∧ u.isSubtype t)

theorem Ty.FoundBelow.mem_classes (h : t.FoundBelow V (.constructor c)) : V.classes c := by
  rcases h with ⟨d, hd, h⟩ | ⟨h, -⟩
  · cases h
    exact hd
  · exact Ty.Offered.mem_classes (.inl h)

theorem foundBelow_of_subtypeInstance? (T : ClassTable) (hc : T.classes c)
    (hps : ∀ p ∈ c.params, (Ty.param p).Over T.toVocabulary) (ht : t.Over T.toVocabulary)
    (h : subtypeInstance? c t = some u) : t.FoundBelow T.toVocabulary u := by
  have hown : c.ownInstance.Over T.toVocabulary := by
    refine .applied hc (by simp) fun a ha => ?_
    obtain ⟨p, hp, rfl⟩ := List.mem_map.mp ha
    exact hps p hp
  unfold subtypeInstance? at h
  split at h
  · exact .inl ⟨c, hc, (Option.some.inj h).symm⟩
  · split at h
    · obtain ⟨-, h⟩ := Option.ite_none_right_eq_some.mp h
      cases h
      exact .inr ⟨ht, Ty.isSubtype_refl t⟩
    · rcases eq_of_subtypeFrom? h with rfl | ⟨hsub, s, hs, m, hm, hall, rfl⟩
      · exact .inl ⟨c, hc, rfl⟩
      · refine .inr ⟨.applied hc ?_ fun a ha => ?_, hsub⟩
        · exact List.filterMap_length_eq_length.mpr (List.all_eq_true.mp hall)
        · have hover := T.over_allSupertypes hown (List.mem_of_mem_drop hs)
          obtain ⟨p, -, hp⟩ := List.mem_filterMap.mp ha
          exact (ht.unify? hover hm).lookup hp

end ProgramGen

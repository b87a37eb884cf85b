import ProgramGen.Proofs.Subtyping.Catalog
import ProgramGen.Proofs.Subtyping.Monotone

/-!
# Subtyping is transitive

Over a consistent table, what is below a subtype is below. The induction is on the weights of all
three types together, since contravariant arguments swap the outer two. When the first two types are
one class and the third is reached from a supertype of the second, the same supertype of the first
stands in for it: it is related by monotonicity, and it weighs less.
-/

namespace ProgramGen

variable {T : ClassTable} {n : Nat} {a b d : Ty} {c : TypeCtor} {xs ys zs : List Ty}

/-- Transitivity for types that weigh less than `n` together. -/
def TransitiveBelow (T : ClassTable) (n : Nat) : Prop :=
  ∀ a b d : Ty, a.weight + b.weight + d.weight < n → a.Over T.toVocabulary → b.Over T.toVocabulary →
    d.Over T.toVocabulary → a.isSubtype b → b.isSubtype d → a.isSubtype d

/-- A type below one of its supertypes' subtypes is below it. -/
theorem Ty.Over.isSubtype_of_up {V : Vocabulary} {s : Ty} (ha : a.Over V)
    (hd : d.Over V) (hs : s ∈ a.supertypes) (h : s.isSubtype d) : a.isSubtype d :=
  (ha.isSubtype_iff_below hd).mpr (.up hs h)

theorem TransitiveBelow.relates (ih : TransitiveBelow T n) {v : Variance} {x y z : Ty}
    (hw : x.weight + y.weight + z.weight < n) (hx : x.Over T.toVocabulary) (hy : y.Over T.toVocabulary)
    (hz : z.Over T.toVocabulary) (hxy : v.Relates x y) (hyz : v.Relates y z) : v.Relates x z := by
  cases v with
  | invariant => exact Eq.trans hxy hyz
  | covariant => exact ih x y z hw hx hy hz hxy hyz
  | contravariant => exact ih z y x (by omega) hz hy hx hyz hxy

/-- Arguments of one class compose, pair by pair. -/
theorem TransitiveBelow.argsRelated (ih : TransitiveBelow T n)
    (hw : (Ty.applied c xs).weight + (Ty.applied c ys).weight + (Ty.applied c zs).weight ≤ n)
    (hxs : (Ty.applied c xs).Over T.toVocabulary) (hys : (Ty.applied c ys).Over T.toVocabulary)
    (hzs : (Ty.applied c zs).Over T.toVocabulary) (hxy : ArgsRelated c.params xs ys)
    (hyz : ArgsRelated c.params ys zs) : ArgsRelated c.params xs zs := by
  refine argsRelated_iff.mpr fun i hp hx hz => ?_
  have hy : i < ys.length := hys.length_args ▸ hp
  have hxw := Ty.weight_lt_applied (c := c) (List.getElem_mem hx)
  have hyw := Ty.weight_lt_applied (c := c) (List.getElem_mem hy)
  have hzw := Ty.weight_lt_applied (c := c) (List.getElem_mem hz)
  exact ih.relates (by omega) (hxs.arg (List.getElem_mem hx)) (hys.arg (List.getElem_mem hy))
    (hzs.arg (List.getElem_mem hz)) (argsRelated_iff.mp hxy i hp hx hy)
    (argsRelated_iff.mp hyz i hp hy hz)

/-- Two instances of one class inherit related supertypes. -/
theorem isSubtype_supertypes {s : Ty} (hxs : (Ty.applied c xs).Over T.toVocabulary)
    (hys : (Ty.applied c ys).Over T.toVocabulary) (h : ArgsRelated c.params xs ys)
    (hs : s ∈ (Ty.applied c ys).supertypes) :
    ∃ r ∈ (Ty.applied c xs).supertypes, r.isSubtype s := by
  have hc := hxs.mem_classes
  obtain ⟨σ, hσ, rfl⟩ := List.mem_map.mp hs
  refine ⟨_, List.mem_map_of_mem hσ, ?_⟩
  exact (T.supers_over c hc σ hσ).subst_relates (T.supers_vary c hc σ hσ) (fun _ => hxs.arg)
    (fun _ => hys.arg) hxs.length_args hys.length_args h

/-- The case where the first two types are instances of one class. -/
theorem TransitiveBelow.of_args (ih : TransitiveBelow T n)
    (hw : (Ty.applied c xs).weight + (Ty.applied c ys).weight + d.weight ≤ n)
    (hxs : (Ty.applied c xs).Over T.toVocabulary) (hys : (Ty.applied c ys).Over T.toVocabulary)
    (hd : d.Over T.toVocabulary) (h : ArgsRelated c.params xs ys)
    (hyd : (Ty.applied c ys).isSubtype d) : (Ty.applied c xs).isSubtype d := by
  rcases (hys.isSubtype_iff_below hd).mp hyd with
    rfl | hb | ht | ⟨⟨⟩, rfl, hname, -, hargs⟩ | ⟨hs, hsd⟩
  · exact hxs.isSubtype_of_argsRelated hys h
  · simp [Ty.isBottom, Ty.builtinKind?] at hb
  · exact (hxs.isSubtype_iff_below hd).mpr (.top ht)
  · obtain rfl := T.eq_of_name _ _ hys.mem_classes hd.mem_classes hname
    exact hxs.isSubtype_of_argsRelated hd (ih.argsRelated hw hxs hys hd h hargs)
  · obtain ⟨r, hr, hrs⟩ := isSubtype_supertypes hxs hys h hs
    have hrw := Ty.weight_lt_of_mem_supertypes hr
    have hsw := Ty.weight_lt_of_mem_supertypes hs
    have hrd := ih r _ d (by omega) (T.over_supertypes hxs hr) (T.over_supertypes hys hs) hd hrs hsd
    exact hxs.isSubtype_of_up hd hr hrd

/-- A type that the top is below is the top. -/
theorem Ty.isTop_of_isSubtype {V : Vocabulary} (hb : b.Over V)
    (hd : d.Over V) (ht : b.isTop) (h : b.isSubtype d) : d.isTop := by
  cases hb with
  | builtin hcat =>
    rcases ((Ty.Over.builtin hcat).isSubtype_iff_below hd).mp h with
      rfl | hbot | h | ⟨⟨⟩, -, -, -, -⟩ | ⟨hs, -⟩
    · exact ht
    · simp_all [isTop, isBottom]
    · exact h
    · rw [hcat.supertypes_top ht] at hs
      cases hs
  | _ => simp [isTop, builtinKind?] at ht

theorem transitiveBelow (T : ClassTable) (n : Nat) : TransitiveBelow T n := by
  induction n with
  | zero => exact fun _ _ _ hw => absurd hw (Nat.not_lt_zero _)
  | succ n ih =>
    intro a b d hw ha hb hd hab hbd
    rcases (ha.isSubtype_iff_below hb).mp hab with
      rfl | hbot | htop | ⟨rfl, rfl, hname, -, hargs⟩ | ⟨hs, hsb⟩
    · exact hbd
    · exact (ha.isSubtype_iff_below hd).mpr (.bottom hbot)
    · exact (ha.isSubtype_iff_below hd).mpr (.top (Ty.isTop_of_isSubtype hb hd htop hbd))
    · obtain rfl := T.eq_of_name _ _ ha.mem_classes hb.mem_classes hname
      exact ih.of_args (by omega) ha hb hd hargs hbd
    · have hsw := Ty.weight_lt_of_mem_supertypes hs
      exact ha.isSubtype_of_up hd hs
        (ih _ b d (by omega) (T.over_supertypes ha hs) hb hd hsb hbd)

/-- **Subtyping over a consistent table is transitive.** -/
theorem Ty.isSubtype_trans (T : ClassTable) (ha : a.Over T.toVocabulary) (hb : b.Over T.toVocabulary)
    (hd : d.Over T.toVocabulary) (hab : a.isSubtype b) (hbd : b.isSubtype d) : a.isSubtype d :=
  transitiveBelow T _ a b d (Nat.lt_succ_self _) ha hb hd hab hbd

/-! ## A declared class -/

/-- A covariant class below the arrays of its parameter. -/
def shelf : TypeCtor :=
  let p : TypeParam := ⟨"T", .covariant, none⟩
  ⟨"Shelf", [p], [Language.kotlin.arrayOf (.param p)], false⟩

/-- The catalog with `shelf` declared. -/
def shelfTable : ClassTable :=
  Language.kotlin.classTable.declare shelf
    (by
      intro d hd
      cases hd with
      | function n => exact Language.kotlin.functionCtor_name_ne n (by decide)
      | _ => decide)
    (by
      intro s hs
      rw [List.mem_singleton.mp hs]
      refine .applied (.inl .array) rfl fun t ht => ?_
      rw [List.mem_singleton.mp ht]
      exact .param (by simp))
    (by
      intro s hs
      rw [List.mem_singleton.mp hs]
      refine .applied fun x hx => ?_
      rw [List.mem_singleton.mp hx]
      exact .param ⟨_, .head _, rfl⟩ fun q hq _ => by
        rw [List.mem_singleton.mp hq]
        exact .inr rfl)

theorem shelfTable_kotlin : shelfTable.languages .kotlin := rfl

theorem shelfTable_over {t : Ty} (ht : t.Over shelfTable.toVocabulary) :
    (shelf.apply [t]).Over shelfTable.toVocabulary :=
  .applied (.inr rfl) rfl fun _ hu => List.mem_singleton.mp hu ▸ ht

theorem isSubtype_trans_shelf :
    (shelf.apply [Language.kotlin.integerType]).isSubtype
        (shelf.apply [Language.kotlin.numberType]) ∧
      (shelf.apply [Language.kotlin.numberType]).isSubtype
        (Language.kotlin.arrayOf Language.kotlin.anyType) ∧
      (shelf.apply [Language.kotlin.integerType]).isSubtype
        (Language.kotlin.arrayOf Language.kotlin.anyType) := by
  have h1 : (shelf.apply [Language.kotlin.integerType]).isSubtype
      (shelf.apply [Language.kotlin.numberType]) := by decide +kernel
  have h2 : (shelf.apply [Language.kotlin.numberType]).isSubtype
      (Language.kotlin.arrayOf Language.kotlin.anyType) := by decide +kernel
  refine ⟨h1, h2, Ty.isSubtype_trans shelfTable (shelfTable_over (Ty.over_builtin shelfTable_kotlin .integer))
    (shelfTable_over (Ty.over_builtin shelfTable_kotlin .number)) ?_ h1 h2⟩
  refine .applied (.inl .array) rfl fun t ht => ?_
  rw [List.mem_singleton.mp ht]
  exact Ty.over_builtin shelfTable_kotlin .any

end ProgramGen

import ProgramGen.Synthesis.Session
import Mathlib.Data.List.Infix

/-!
# Scopes inside scopes

A namespace is within another one if that is a prefix of it: the lineage of a namespace are all that
it is within.
-/

namespace ProgramGen

namespace Namespace

variable {ns m m' : Namespace} {x : String}

theorem isWithin_iff : ns.isWithin m ↔ m.segments <+: ns.segments := List.isPrefixOf_iff_prefix

theorem isWithin_refl (ns : Namespace) : ns.isWithin ns := isWithin_iff.mpr (List.prefix_refl _)

theorem isWithin_trans (h : ns.isWithin m) (h' : m.isWithin m') : ns.isWithin m' :=
  isWithin_iff.mpr ((isWithin_iff.mp h').trans (isWithin_iff.mp h))

theorem isWithin_antisymm (h : ns.isWithin m) (h' : m.isWithin ns) : m = ns := by
  have heq := (isWithin_iff.mp h).eq_of_length ((isWithin_iff.mp h).length_le.antisymm (isWithin_iff.mp h').length_le)
  cases m
  cases ns
  exact congrArg _ heq

theorem isWithin_child (ns : Namespace) (x : String) : (ns.child x).isWithin ns :=
  isWithin_iff.mpr (List.prefix_append _ _)

theorem child_isWithin (h : ns.isWithin m) : (ns.child x).isWithin m := isWithin_trans (isWithin_child ns x) h

/-- What a scope inside is within, apart from itself, the scope around is within. -/
theorem isWithin_of_child (h : (ns.child x).isWithin m) (hne : m ≠ ns.child x) : ns.isWithin m := by
  refine isWithin_iff.mpr ?_
  rcases List.prefix_concat_iff.mp (isWithin_iff.mp h) with h | h
  · exact absurd (by cases m; cases h; rfl) hne
  · exact h

/-- No scope around is within a scope inside. -/
theorem not_isWithin_child (h : ns.isWithin m) : m.isWithin (ns.child x) = false := by
  refine Bool.eq_false_iff.mpr fun hm => ?_
  have hle := (isWithin_iff.mp h).length_le
  have hlt := (isWithin_iff.mp hm).length_le
  simp only [child, List.length_append, List.length_singleton] at hlt
  omega

theorem ne_child (h : ns.isWithin m) : m ≠ ns.child x := by
  rintro rfl
  have := not_isWithin_child (x := x) h
  rw [isWithin_refl] at this
  cases this

/-- **The lineage of a scope.** -/
theorem mem_lineage : m ∈ ns.lineage ↔ ns.isWithin m ∧ m.segments ≠ [] := by
  rw [lineage, List.mem_map, isWithin_iff]
  constructor
  · rintro ⟨k, hk, rfl⟩
    have hk : k < ns.segments.length := List.mem_range.mp hk
    refine ⟨List.take_prefix _ _, fun h => ?_⟩
    have := congrArg List.length h
    simp only [List.length_take, List.length_nil] at this
    omega
  · rintro ⟨h, hne⟩
    have hpos := List.length_pos_iff.mpr hne
    refine ⟨m.segments.length - 1, List.mem_range.mpr ?_, ?_⟩
    · have := h.length_le
      show _ < ns.segments.length
      omega
    · rw [Nat.sub_add_cancel hpos, ← List.prefix_iff_eq_take.mp h]

theorem child_mem_lineage (h : m ∈ ns.lineage) : m ∈ (ns.child x).lineage :=
  mem_lineage.mpr ((mem_lineage.mp h).imp_left child_isWithin)

theorem self_mem_lineage (h : ns.segments.head? = some globalSegment) : ns ∈ ns.lineage :=
  mem_lineage.mpr ⟨isWithin_refl ns, fun hnil => by simp [hnil] at h⟩

/-- The top level is around everything that starts there. -/
theorem global_mem_lineage (h : ns.segments.head? = some globalSegment) : .global ∈ ns.lineage := by
  refine mem_lineage.mpr ⟨isWithin_iff.mpr ?_, List.cons_ne_nil _ _⟩
  cases hs : ns.segments with
  | nil => simp [hs] at h
  | cons a rest =>
    obtain rfl : a = globalSegment := by simpa [hs] using h
    exact ⟨rest, rfl⟩

theorem isGlobal_iff (h : ns.segments.head? = some globalSegment) : ns.isGlobal ↔ ns = .global := by
  obtain ⟨segments⟩ := ns
  cases segments with
  | nil => cases h
  | cons a rest =>
    obtain rfl : a = globalSegment := Option.some.inj h
    simp [isGlobal, size, global]

theorem global_isGlobal : Namespace.global.isGlobal := rfl

theorem head?_child (h : ns.segments.head? = some globalSegment) :
    (ns.child x).segments.head? = some globalSegment := by
  simp [child, h]

theorem child_ne_global (h : ns.segments.head? = some globalSegment) : ns.child x ≠ .global := by
  intro heq
  have := congrArg (fun n : Namespace => n.segments.length) heq
  have hpos : 0 < ns.segments.length := List.length_pos_iff.mpr fun h0 => by rw [h0] at h; cases h
  simp only [child, global, List.length_append, List.length_singleton] at this
  omega

theorem child_injective {ns' : Namespace} {y : String} (h : ns.child x = ns'.child y) :
    ns = ns' ∧ x = y := by
  obtain ⟨segments⟩ := ns
  obtain ⟨segments'⟩ := ns'
  have h' := List.append_inj' (Namespace.mk.inj h) rfl
  exact ⟨congrArg _ h'.1, List.singleton_inj.mp h'.2⟩

/-! ## Classes -/

theorem className?_eq_some (h : ns.className? = some x) :
    startsUppercase x ∧ ∃ a, ns.segments = [a, x] := by
  unfold className? at h
  split at h
  · rename_i a name heq
    obtain ⟨hup, h⟩ := Option.ite_none_right_eq_some.mp h
    cases h
    exact ⟨hup, a, heq⟩
  · cases h

theorem className?_child_of_lower (h : startsUppercase x = false) : (ns.child x).className? = none := by
  rw [Option.eq_none_iff_forall_not_mem]
  intro name hname
  obtain ⟨hup, a, hseg⟩ := className?_eq_some hname
  have hx : [a, name] = ns.segments ++ [x] := hseg.symm
  have := congrArg List.getLast? hx
  simp only [List.getLast?_cons_cons, List.getLast?_singleton, List.getLast?_concat, Option.some.injEq] at this
  rw [this, h] at hup
  cases hup

theorem className?_child_of_ne_global (hroot : ns.segments.head? = some globalSegment)
    (h : ns ≠ .global) : (ns.child x).className? = none := by
  rw [Option.eq_none_iff_forall_not_mem]
  intro name hname
  obtain ⟨-, a, hseg⟩ := className?_eq_some hname
  refine h ((isGlobal_iff hroot).mp ?_)
  have := congrArg List.length hseg
  simp only [child, List.length_append, List.length_cons, List.length_nil] at this
  simp only [isGlobal, size, beq_iff_eq]
  omega

theorem className?_classScope (h : startsUppercase x) :
    (Namespace.global.child x).className? = some x := by
  show (if startsUppercase x then some x else none) = some x
  rw [if_pos h]

/-- A scope that is named like a class's is its scope, if it is inside the global one. -/
theorem eq_classScope (hns : ns.isWithin .global) (h : ns.className? = some x) : ns = Namespace.global.child x := by
  obtain ⟨-, a, hsegments⟩ := className?_eq_some h
  obtain ⟨segments⟩ := ns
  obtain rfl : segments = [a, x] := hsegments
  obtain rfl : globalSegment = a := by simpa [isWithin, global] using hns
  rfl

theorem className?_global : Namespace.global.className? = none := rfl

/-- Around a scope of the top level there is only the top level. -/
theorem mem_lineage_child_global (h : m ∈ (Namespace.global.child x).lineage) :
    m = Namespace.global.child x ∨ m = .global := by
  obtain ⟨hwithin, hne⟩ := mem_lineage.mp h
  refine or_iff_not_imp_left.mpr fun hself => ?_
  have hmem : m ∈ Namespace.global.lineage := mem_lineage.mpr ⟨isWithin_of_child hwithin hself, hne⟩
  exact List.mem_singleton.mp hmem

end Namespace

end ProgramGen

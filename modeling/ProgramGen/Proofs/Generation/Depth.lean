import ProgramGen.Proofs.Program.Shape

/-!
# How deep expressions get

Bounds on the depth of what is generated at a depth of the frame. A level of the frame is worth three
levels of the tree: a closure or a loop is one level deeper in the frame, and its block and what
stands around the block are levels of the tree. Beyond twice the limit only literals are left, and
the declarations of loops.
-/

namespace ProgramGen

/-- How deep a root of a program gets, where `L` is the limit of depth. -/
def rootDepth (L : Nat) : Nat := 6 * L + 10

/-- How deep an expression of type `t` gets at depth `d`. -/
def exprDepth (L d : Nat) (t : Ty) : Nat :=
  if d ≤ 2 * L then 3 * (2 * L + 1 - d) + 4 else if t.isApplied then 2 else 1

/-- How deep the initializer of a variable gets that is declared at depth `d`. -/
def initDepth (L d : Nat) : Nat := if d ≤ 2 * L then 3 * (2 * L + 1 - d) + 4 else 3

/-- How deep the body of a function or closure gets whose scope is at depth `d`. -/
def bodyDepth (L d : Nat) : Nat := if d ≤ 2 * L then 3 * (2 * L + 1 - d) + 6 else 6

variable {L d d' : Nat} {t u : Ty}

theorem exprDepth_pos : 1 ≤ exprDepth L d t := by
  unfold exprDepth
  split
  · omega
  · split <;> omega

theorem exprDepth_le_initDepth : exprDepth L d t + 1 ≤ bodyDepth L d ∧ exprDepth L d t ≤ initDepth L d := by
  unfold exprDepth initDepth bodyDepth
  split
  · omega
  · split <;> omega

theorem initDepth_lt_bodyDepth : initDepth L d + 2 ≤ bodyDepth L d := by
  unfold initDepth bodyDepth
  split <;> omega

theorem bodyDepth_le_rootDepth : bodyDepth L d ≤ rootDepth L := by
  unfold bodyDepth rootDepth
  split <;> omega

theorem initDepth_le_rootDepth : initDepth L d ≤ rootDepth L :=
  Nat.le_trans (Nat.le_add_right _ 2) (Nat.le_trans initDepth_lt_bodyDepth bodyDepth_le_rootDepth)

theorem two_le_initDepth : 2 ≤ initDepth L d := by
  unfold initDepth
  split <;> omega

theorem initDepth_mono (h : d ≤ d') : initDepth L d' ≤ initDepth L d := by
  unfold initDepth
  split <;> split <;> omega

/-- Beyond the limit only types with arguments need room for more than a literal. -/
theorem exprDepth_le_of_applied (h : 2 * L < d → t.isApplied = false → u.isApplied = false) :
    exprDepth L d u ≤ exprDepth L d t := by
  unfold exprDepth
  split
  · exact Nat.le_refl _
  · rename_i hd
    have := h (by omega)
    split_ifs <;> simp_all

/-- One level further down there is room for three levels of the tree. -/
theorem exprDepth_below (hd : d ≤ 2 * L) (h : d < d') : exprDepth L d' u + 3 ≤ exprDepth L d t := by
  unfold exprDepth
  rw [if_pos hd]
  split
  · omega
  · split <;> omega

/-- Beyond the limit there is room for the elements of an array. -/
theorem exprDepth_element (ht : t.isApplied) (hu : u.isApplied = false) (h : d < d') :
    exprDepth L d' u + 1 ≤ exprDepth L d t := by
  by_cases hd : d ≤ 2 * L
  · have := exprDepth_below (u := u) (t := t) hd h
    omega
  · unfold exprDepth
    rw [if_neg hd, if_neg (by omega), ht, hu]
    decide

theorem initDepth_below (hd : d ≤ 2 * L) (h : d < d') : initDepth L d' + 2 ≤ exprDepth L d t := by
  unfold exprDepth initDepth
  rw [if_pos hd]
  split <;> omega

theorem bodyDepth_below (hd : d ≤ 2 * L) (h : d < d') : bodyDepth L d' + 1 ≤ exprDepth L d t := by
  unfold exprDepth bodyDepth
  rw [if_pos hd]
  split <;> omega

/-! ## Bodies of loops

A loop stands in the block of a body; its own statements are two levels further down. -/

theorem bodyDepth_loop (h : d < L) : bodyDepth L (d + 1) + 2 ≤ bodyDepth L d := by
  unfold bodyDepth
  split <;> split <;> omega

theorem initDepth_loop : initDepth L (d + 1) + 2 ≤ bodyDepth L d := by
  unfold initDepth bodyDepth
  split <;> split <;> omega

theorem exprDepth_loop : exprDepth L (d + 1) t + 2 ≤ bodyDepth L d :=
  Nat.le_trans (Nat.add_le_add_right exprDepth_le_initDepth.2 2) initDepth_loop

/-- The iterator of a loop is one level deeper than what it comes from. -/
theorem exprDepth_iterator : exprDepth L (d + 1) t + 1 ≤ initDepth L d := by
  unfold exprDepth initDepth
  split_ifs <;> omega

/-- What a loop appends to a string is one more operator and an assignment. -/
theorem exprDepth_append (ht : t.isApplied = false) : exprDepth L (d + 2) t + 4 ≤ bodyDepth L d := by
  unfold exprDepth bodyDepth
  simp only [ht, Bool.false_eq_true, if_false]
  split <;> split <;> omega

end ProgramGen

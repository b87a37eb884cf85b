import ProgramGen.Random.Draw

/-!
# The range of draws

What a draw can give, whatever the stream is: a size lies within its bounds, and one element of a
list is an element of it.
-/

namespace ProgramGen

variable {α : Type} {r : Rand α} {a : α}

/-- Some stream makes the computation give `a`. -/
def Rand.CanGive (r : Rand α) (a : α) : Prop := ∃ st, (r st).1 = a

namespace Rand

theorem run_bind {β : Type} (x : Rand α) (f : α → Rand β) (st : Stream) :
    (x >>= f) st = f (x st).1 (x st).2 := rfl

theorem run_pure (a : α) (st : Stream) : (pure a : Rand α) st = (a, st) := rfl

theorem CanGive.bind {β : Type} {f : α → Rand β} {b : β} (h : (r >>= f).CanGive b) :
    ∃ a, r.CanGive a ∧ (f a).CanGive b := by
  obtain ⟨st, h⟩ := h
  exact ⟨_, ⟨st, rfl⟩, _, h⟩

theorem canGive_pure {b : α} : (pure a : Rand α).CanGive b ↔ a = b :=
  ⟨fun ⟨_, h⟩ => h, fun h => ⟨Stream.ofSeed 0, h⟩⟩

theorem bits_lt {width : Nat} (h : width = 32 ∨ width = 64) (st : Stream) :
    (bits width st).1 < 1 <<< width := by
  rcases h with rfl | rfl
  · exact (word32 st).1.toNat_lt
  · exact (word64 st).1.toNat_lt

/-- The high half of a product with `range` is below `range`. -/
theorem high_lt {v width range : Nat} (hv : v < 1 <<< width) (hr : 0 < range) :
    (v * range) >>> width < range := by
  rw [Nat.shiftRight_eq_div_pow, Nat.div_lt_iff_lt_mul (Nat.two_pow_pos _)]
  rw [Nat.one_shiftLeft] at hv
  calc v * range < 2 ^ width * range := Nat.mul_lt_mul_of_pos_right hv hr
    _ = range * 2 ^ width := Nat.mul_comm _ _

theorem below_lt {width range zone : Nat} (h : width = 32 ∨ width = 64) (hr : 0 < range)
    (n : Nat) (st : Stream) : (below width range zone n st).1 < range := by
  induction n generalizing st with
  | zero => exact high_lt (bits_lt h st) hr
  | succ n ih =>
    have hv := bits_lt h st
    unfold below
    rw [run_bind]
    split
    · exact high_lt hv hr
    · exact ih _

/-- A size that is drawn is within its bounds, unless they are as far apart as sizes can be. -/
theorem sizeBetween_mem {lo hi : Nat} (h : lo ≤ hi) (hhi : hi + 1 < 1 <<< 64) (st : Stream) :
    lo ≤ (sizeBetween lo hi st).1 ∧ (sizeBetween lo hi st).1 ≤ hi := by
  have hrange : (((hi : Int) - lo + 1) % ((1 <<< 64 : Nat) : Int)).toNat = hi - lo + 1 := by
    rw [Int.emod_eq_of_lt] <;> omega
  have hbelow : (below 64 (hi - lo + 1) (IntFormat.size.zone (hi - lo + 1)) attempts st).1 <
      hi - lo + 1 := below_lt (.inr rfl) (Nat.succ_pos _) attempts st
  have hrun : (sizeBetween lo hi st).1 =
      (lo + ((below 64 (hi - lo + 1) (IntFormat.size.zone (hi - lo + 1)) attempts st).1 : Int)).toNat := by
    rw [sizeBetween, run_bind, run_pure, uniform]
    have hbits : IntFormat.size.bits = 64 := rfl
    simp only [hbits, hrange]
    rw [if_neg (Nat.succ_ne_zero _), run_bind, run_pure]
    rfl
  rw [hrun]
  omega

/-- One element of a list is an element of it. -/
theorem mem_of_canGive_choose {xs : List α} (h : (choose xs).CanGive (some a)) : a ∈ xs := by
  obtain ⟨st, h⟩ := h
  cases xs with
  | nil =>
    rw [choose, run_pure] at h
    cases h
  | cons x xs =>
    rw [choose, run_bind] at h
    · exact List.mem_of_getElem? h
    · simp

end Rand

end ProgramGen

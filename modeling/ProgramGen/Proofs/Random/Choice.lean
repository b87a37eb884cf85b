import ProgramGen.Proofs.Random.Range
import Mathlib.Data.List.Nodup
import Mathlib.Data.List.Range
import Mathlib.Data.List.Perm.Subperm

/-!
# The choice among the elements of a list

One element of a list that is not empty is always found, and several elements are drawn from
different positions, whatever the stream is and however long the list is.
-/

namespace ProgramGen

variable {α β : Type} {xs ys : List α} {n k : Nat}

namespace Rand

/-- A position that is drawn is one of the list. -/
theorem index_lt (hn : 0 < n) (st : Stream) : (index n st).1 < n := by
  have hrange : (((n - 1 : Int) - (0 : Int) + 1) % ((1 <<< 32 : Nat) : Int)).toNat = n % 2 ^ 32 := by
    rw [Nat.one_shiftLeft]
    omega
  have hbits : IntFormat.u32.bits = 32 := rfl
  have hdraw : IntFormat.u32.drawBits = 32 := rfl
  by_cases h : n % 2 ^ 32 = 0
  · -- As many positions as there are words: the word itself is the position.
    have hrun : (index n st).1 = (IntFormat.u32.wrap (bits 32 st).1).toNat := by
      rw [index, run_bind, run_pure, uniform]
      simp only [hbits, hrange, hdraw]
      rw [if_pos h, run_bind, run_pure]
    have hword : (IntFormat.u32.wrap (bits 32 st).1).toNat < 2 ^ 32 := by
      have hwrap : IntFormat.u32.wrap (bits 32 st).1 = (((bits 32 st).1 % 2 ^ 32 : Nat) : Int) := rfl
      rw [hwrap]
      omega
    omega
  · have hrun : (index n st).1 =
        (below 32 (n % 2 ^ 32) (IntFormat.u32.zone (n % 2 ^ 32)) attempts st).1 := by
      rw [index, run_bind, run_pure, uniform]
      simp only [hbits, hrange, hdraw]
      rw [if_neg h, run_bind, run_pure]
      simp
    rw [hrun]
    exact Nat.lt_of_lt_of_le (below_lt (.inl rfl) (Nat.pos_of_ne_zero h) attempts st) (Nat.mod_le _ _)

/-- From a list with elements one is drawn. -/
theorem eq_nil_of_canGive_choose (h : (choose xs).CanGive none) : xs = [] := by
  obtain ⟨st, h⟩ := h
  cases xs with
  | nil => rfl
  | cons x xs =>
    rw [choose, run_bind] at h
    · have hlt := index_lt (n := (x :: xs).length) (by simp) st
      have := List.getElem?_eq_none_iff.mp h
      omega
    · simp

/-! ## Several positions -/

/-- What a fold over draws can give keeps what each step keeps. -/
theorem canGive_foldlM {f : β → α → Rand β} {I : List α → β → Prop} {b b' : β}
    (h : (xs.foldlM f b).CanGive b') (hb : I xs b)
    (hf : ∀ x xs b b', I (x :: xs) b → (f b x).CanGive b' → I xs b') : I [] b' := by
  induction xs generalizing b with
  | nil =>
    rw [List.foldlM_nil, canGive_pure] at h
    exact h ▸ hb
  | cons x xs ih =>
    rw [List.foldlM_cons] at h
    obtain ⟨c, hc, h⟩ := h.bind
    exact ih h (hf x xs b c hb hc)

/-- The positions drawn by insertion are different ones below `n`: the next new position is above
all that were drawn before it. -/
theorem positionsByInsertion_nodup {ps : List Nat} (hk : k ≤ n)
    (h : (positionsByInsertion n k).CanGive ps) : ps.Nodup ∧ ∀ p ∈ ps, p < n := by
  let I (js : List Nat) (chosen : List Nat) : Prop :=
    ∃ j, j ≤ n ∧ js = List.range' j (n - j) ∧ chosen.Nodup ∧ ∀ p ∈ chosen, p < j
  have hstart : I (List.range' (n - k) k) [] := by
    refine ⟨n - k, Nat.sub_le n k, ?_, List.nodup_nil, by simp⟩
    rw [Nat.sub_sub_self hk]
  obtain ⟨j, hj, -, hnodup, hlt⟩ := canGive_foldlM h hstart fun j js chosen next hI hnext => by
    obtain ⟨i, hi, hjs, hnodup, hlt⟩ := hI
    have hpos : n - i = (n - i - 1) + 1 := by
      rcases Nat.eq_zero_or_pos (n - i) with h0 | h0
      · rw [h0] at hjs
        cases hjs
      · omega
    rw [hpos, List.range'_succ] at hjs
    obtain ⟨rfl, rfl⟩ := List.cons.inj hjs
    refine ⟨j + 1, by omega, by rw [show n - j - 1 = n - (j + 1) by omega], ?_⟩
    obtain ⟨t, ⟨st, ht⟩, hnext⟩ := hnext.bind
    have htj : t < j + 1 := ht ▸ index_lt (Nat.succ_pos j) st
    have hfresh : j ∉ chosen := fun h => Nat.lt_irrefl j (hlt j h)
    split at hnext
    · rename_i i hi
      rw [canGive_pure] at hnext
      subst hnext
      have hil : i ≤ chosen.length := (List.idxOf?_eq_some_iff.mp hi).1.le
      have hperm := List.perm_insertIdx j chosen hil
      refine ⟨hperm.nodup_iff.mpr (List.nodup_cons.mpr ⟨hfresh, hnodup⟩), fun p hp => ?_⟩
      rcases List.mem_cons.mp (hperm.subset hp) with rfl | hp
      · exact Nat.lt_succ_self _
      · exact Nat.lt_succ_of_lt (hlt p hp)
    · rename_i hnone
      rw [canGive_pure] at hnext
      subst hnext
      have ht : t ∉ chosen := List.idxOf?_eq_none_iff.mp hnone
      refine ⟨List.nodup_append.mpr ⟨hnodup, List.nodup_singleton t, ?_⟩, fun p hp => ?_⟩
      · rintro a ha b hb rfl
        exact ht (List.mem_singleton.mp hb ▸ ha)
      · rcases List.mem_append.mp hp with hp | hp
        · exact Nat.lt_succ_of_lt (hlt p hp)
        · exact List.mem_singleton.mp hp ▸ htj
  exact ⟨hnodup, fun p hp => Nat.lt_of_lt_of_le (hlt p hp) hj⟩

theorem swapIfInBounds_perm (a : Array α) (i j : Nat) :
    (a.swapIfInBounds i j).toList.Perm a.toList := by
  unfold Array.swapIfInBounds
  split
  · split
    · exact (Array.swap_perm ..).toList
    · exact .refl _
  · exact .refl _

/-- Exchanges permute the positions, so those in front are different. -/
theorem positionsByExchange_nodup {ps : List Nat} (h : (positionsByExchange n k).CanGive ps) :
    ps.Nodup ∧ ∀ p ∈ ps, p < n := by
  obtain ⟨shuffled, hshuffled, h⟩ := Rand.CanGive.bind h
  have hperm : shuffled.toList.Perm (List.range n) := by
    refine canGive_foldlM (I := fun _ (a : Array Nat) => a.toList.Perm (List.range n)) hshuffled ?_
      fun i is a next ha hnext => ?_
    · simp
    · obtain ⟨j, -, hnext⟩ := hnext.bind
      rw [canGive_pure] at hnext
      subst hnext
      exact (swapIfInBounds_perm ..).trans ha
  rw [canGive_pure] at h
  subst h
  have htake : (shuffled.take k).toList = shuffled.toList.take k := by simp
  rw [htake]
  have hnodup : shuffled.toList.Nodup := hperm.nodup_iff.mpr List.nodup_range
  exact ⟨hnodup.sublist (List.take_sublist k _), fun p hp =>
    List.mem_range.mp (hperm.subset (List.mem_of_mem_take hp))⟩

/-- **Elements drawn together stand at different positions of the list.** -/
theorem subperm_of_canGive_chooseMultiple (h : (chooseMultiple xs k).CanGive ys) :
    ys.Subperm xs := by
  obtain ⟨ps, hps, h⟩ := Rand.CanGive.bind h
  rw [canGive_pure] at h
  subst h
  have hpositions : ps.Nodup ∧ ∀ p ∈ ps, p < xs.length := by
    unfold positions at hps
    split at hps
    · exact positionsByExchange_nodup hps
    · exact positionsByInsertion_nodup (Nat.min_le_right k xs.length) hps
  have hall : (List.range xs.length).filterMap (xs[·]?) = xs := by
    have hsome : (List.range xs.length).map (xs[·]?) = xs.map some :=
      List.ext_getElem (by simp) (by simp)
    calc (List.range xs.length).filterMap (xs[·]?)
      _ = ((List.range xs.length).map (xs[·]?)).filterMap id := by rw [List.filterMap_map]; rfl
      _ = xs := by rw [hsome, List.filterMap_map]; simp
  obtain ⟨qs, hperm, hsub⟩ := hpositions.1.subperm
    fun p hp => List.mem_range.mpr (hpositions.2 p hp)
  have hsub : (qs.filterMap (xs[·]?)).Sublist ((List.range xs.length).filterMap (xs[·]?)) :=
    hsub.filterMap _
  rw [hall] at hsub
  exact ⟨_, hperm.filterMap _, hsub⟩

end Rand

end ProgramGen

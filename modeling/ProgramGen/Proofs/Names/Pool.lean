import ProgramGen.Names.Source
import ProgramGen.Proofs.Names.Words
import ProgramGen.Proofs.Random.Range
import Mathlib.Data.List.Perm.Subperm

/-!
# What the pool offers

A draw takes a name out of the pool for good. So a name that has been drawn is never offered again,
and what is offered later was offered before.
-/

namespace ProgramGen

variable {p p' : WordPool} {w v : String} {i : Nat}

namespace WordPool

/-- The `k`-th numbered name. -/
def numberedName (k : Nat) : String := "ident" ++ toString k

/-- A name that may still be drawn. -/
def Offers (p : WordPool) (w : String) : Prop :=
  w ∈ p.words.toList ∨ ∃ k, p.numbered < k ∧ w = numberedName k

/-- The words that are left are different words of the list. -/
structure Sound (p : WordPool) : Prop where
  nodup : p.words.toList.Nodup
  listed : ∀ w ∈ p.words.toList, w ∈ wordList

/-- What is left when `w` has been drawn. -/
structure Drawn (p : WordPool) (w : String) (p' : WordPool) : Prop where
  sound : p'.Sound
  offered : p.Offers w
  gone : ¬p'.Offers w
  offers : ∀ v, p'.Offers v → p.Offers v

theorem numberedName_injective {j k : Nat} (h : numberedName j = numberedName k) : j = k :=
  Nat.repr_injective ((String.append_right_inj "ident").mp h)

/-- A numbered name is no word of the list. -/
theorem numberedName_notMem (k : Nat) : numberedName k ∉ wordList :=
  append_notMem_wordList (.head _) _

/-! ## Taking a word -/

/-- The last element may come into the place of one that is taken out. -/
theorem perm_set_dropLast {xs : List String} (hi : i < xs.length) (hne : xs ≠ []) :
    (xs[i] :: (xs.set i (xs.getLast hne)).dropLast).Perm xs := by
  obtain ⟨ys, last, rfl⟩ : ∃ ys last, xs = ys ++ [last] :=
    ⟨xs.dropLast, xs.getLast hne, (List.dropLast_append_getLast hne).symm⟩
  simp only [List.getLast_append_singleton]
  by_cases h : i < ys.length
  · have hset : (ys ++ [last]).set i last = ys.set i last ++ [last] := List.set_append_left _ _ h
    rw [hset, List.dropLast_concat, List.getElem_append_left h]
    calc ys[i] :: ys.set i last
      _ |>.Perm (ys[i] :: last :: ys.eraseIdx i) := (List.set_perm_cons_eraseIdx h _).cons _
      _ |>.Perm (last :: ys[i] :: ys.eraseIdx i) := .swap ..
      _ |>.Perm (last :: ys) := (List.getElem_cons_eraseIdx_perm h).cons _
      _ |>.Perm (ys ++ [last]) := (List.perm_append_singleton ..).symm
  · obtain rfl : i = ys.length := by
      simp only [List.length_append, List.length_singleton] at hi
      omega
    have hset : (ys ++ [last]).set ys.length last = ys ++ [last] := by simp
    rw [hset, List.dropLast_concat]
    simpa using (List.perm_append_singleton last ys).symm

/-- To take the word at a position takes out that word alone. -/
theorem take_perm (hi : i < p.words.size) :
    ((p.take i).1 :: (p.take i).2.words.toList).Perm p.words.toList ∧
      (p.take i).2.numbered = p.numbered := by
  have hlt : i < p.words.toList.length := by simpa using hi
  have hne : p.words.toList ≠ [] := List.ne_nil_of_length_pos (by omega)
  have hget : p.words[i]? = some p.words[i] := Array.getElem?_eq_getElem hi
  have hback : p.words.back? = some (p.words.toList.getLast hne) := by
    rw [← List.getLast?_eq_getLast_of_ne_nil hne]
    simp
  have htake : p.take i = (p.words[i],
      { p with words := (p.words.setIfInBounds i (p.words.toList.getLast hne)).pop }) := by
    simp only [take, hget, hback]
  refine ⟨?_, by rw [htake]⟩
  have hperm := perm_set_dropLast hlt hne
  rw [Array.getElem_toList] at hperm
  rw [htake]
  simpa only [Array.toList_pop, Array.toList_setIfInBounds] using hperm

/-- **A word that is taken is gone.** -/
theorem drawn_take (hp : p.Sound) (hi : i < p.words.size) : p.Drawn (p.take i).1 (p.take i).2 := by
  obtain ⟨hperm, hnum⟩ := take_perm hi
  obtain ⟨hfresh, hnodup⟩ := List.nodup_cons.mp (hperm.nodup_iff.mpr hp.nodup)
  have hsub : ∀ v ∈ (p.take i).2.words.toList, v ∈ p.words.toList := fun v hv =>
    hperm.subset (List.mem_cons_of_mem _ hv)
  have hw : (p.take i).1 ∈ p.words.toList := hperm.subset List.mem_cons_self
  refine ⟨⟨hnodup, fun v hv => hp.listed v (hsub v hv)⟩, .inl hw, ?_, ?_⟩
  · rintro (h | ⟨k, -, h⟩)
    · exact hfresh h
    · exact numberedName_notMem k (h ▸ hp.listed _ hw)
  · rintro v (h | h)
    · exact .inl (hsub v h)
    · exact .inr (hnum ▸ h)

/-- **A number that is used is gone.** -/
theorem drawn_number (hp : p.Sound) (hempty : p.words = #[]) :
    p.Drawn p.number.1 p.number.2 := by
  refine ⟨⟨hp.nodup, hp.listed⟩, .inr ⟨_, Nat.lt_succ_self _, rfl⟩, ?_, ?_⟩
  · rintro (h | ⟨k, hk, h⟩)
    · simp [number, hempty] at h
    · have := numberedName_injective (j := p.numbered + 1) h
      simp only [number] at hk
      omega
  · rintro v (h | ⟨k, hk, rfl⟩)
    · exact .inl h
    · exact .inr ⟨k, by simp only [number] at hk; omega, rfl⟩

/-- **What the pool gives is gone.** -/
theorem drawn_word (hp : p.Sound) (st : Stream) : p.Drawn (p.word st).1.1 (p.word st).1.2 := by
  rw [word]
  split
  · exact drawn_number hp (Array.isEmpty_iff.mp ‹_›)
  · rw [Rand.run_bind]
    have hsize : p.words.size ≤ wordList.length := by
      simpa using (hp.nodup.subperm hp.listed).length_le
    have hpos : 0 < p.words.size := by
      rename_i h
      simpa [Array.size_pos_iff, Array.isEmpty_iff] using h
    have hlen : wordList.length < 2 ^ 16 := by decide +kernel
    have := Rand.sizeBetween_mem (Nat.zero_le (p.words.size - 1)) (by omega) st
    exact drawn_take hp (by omega)

/-- A full pool is sound. -/
theorem sound_full (l : Language) : (full l).Sound where
  nodup := by
    rw [full, List.toList_toArray]
    exact wordList_nodup.filter _
  listed w hw := by
    simp only [full, List.mem_filter] at hw
    exact hw.1

/-! ## What is offered -/

/-- What a sound pool offers is a word of the list or a numbered name. -/
theorem Offers.cases (h : p.Offers w) (hp : p.Sound) : w ∈ wordList ∨ ∃ k, w = numberedName k := by
  rcases h with h | ⟨k, -, rfl⟩
  · exact .inl (hp.listed w h)
  · exact .inr ⟨k, rfl⟩

theorem Offers.startsLower (h : p.Offers w) (hp : p.Sound) : StartsLower w := by
  rcases h.cases hp with h | ⟨k, rfl⟩
  · exact startsLower_of_isPlain (wordList_isPlain w h)
  · exact StartsLower.append ⟨'i', ['d', 'e', 'n', 't'], rfl, rfl⟩ _

/-- No text is offered that is neither a plain word nor begins like a numbered name. -/
theorem Offers.ne (h : p.Offers w) (hp : p.Sound) (hv : isPlainWord v = false)
    (hident : (textBytes "ident").isPrefixOf (textBytes v) = false) : w ≠ v := by
  rintro rfl
  rcases h.cases hp with h | ⟨k, rfl⟩
  · rw [wordList_isPlain w h] at hv
    cases hv
  · rw [numberedName, textBytes_append, Bool.eq_false_iff, ne_eq, List.isPrefixOf_iff_prefix] at hident
    exact hident (List.prefix_append _ _)

end WordPool

/-! ## Letters -/

theorem capitalLetters_nodup : capitalLetters.Nodup := by decide +kernel

/-- A letter that is drawn is not in use; none is drawn only when all are. -/
theorem canGive_freshLetter {used : List String} {o : Option String}
    (h : (freshLetter used).CanGive o) :
    (∀ letter ∈ o, letter ∈ capitalLetters ∧ letter ∉ used) ∧
      (o = none → ∀ letter ∈ capitalLetters, letter ∈ used) := by
  unfold freshLetter at h
  dsimp only at h
  split at h
  · rename_i hfree
    obtain rfl := Rand.canGive_pure.mp h
    exact ⟨nofun, fun _ => by simpa [List.filter_eq_nil_iff] using hfree⟩
  · rename_i hfree
    obtain ⟨i, ⟨st, hi⟩, h⟩ := h.bind
    obtain rfl := Rand.canGive_pure.mp h
    refine ⟨fun letter hletter => ?_, fun hnone => ?_⟩
    · have hmem := List.mem_filter.mp (List.mem_of_getElem? hletter)
      exact ⟨hmem.1, by simpa using hmem.2⟩
    · -- The position that is drawn is one of the list.
      generalize hfreeList : (capitalLetters.filter fun c => !used.contains c) = free at *
      have hpos : 0 < free.length := by simpa [List.length_pos_iff] using hfree
      have hle : free.length ≤ 26 := hfreeList ▸ List.length_filter_le _ _
      have hbound : 0 ≤ (Rand.sizeBetween 0 (free.length - 1) st).1 ∧
          (Rand.sizeBetween 0 (free.length - 1) st).1 ≤ free.length - 1 :=
        Rand.sizeBetween_mem (Nat.zero_le _) (by omega) st
      rw [hi] at hbound
      have := List.getElem?_eq_none_iff.mp hnone
      omega

end ProgramGen

import ProgramGen.Names.Pool
import Std.Data.String.ToNat

/-!
# What names look like

The words of the list are lowercase letters throughout, and no word is listed twice. Numbered names
end in digits, so they are no words. Capitalized, different names stay different.
-/

namespace ProgramGen

/-! ## Words -/

/-- The bytes of a text. -/
def textBytes (s : String) : List Nat := s.toByteArray.data.toList.map UInt8.toNat

theorem textBytes_append (s t : String) : textBytes (s ++ t) = textBytes s ++ textBytes t := by
  simp [textBytes, String.toByteArray_append]

/-- The order of texts by their bytes. -/
def bytesBefore : List Nat → List Nat → Bool
  | [], ys => !ys.isEmpty
  | _ :: _, [] => false
  | x :: xs, y :: ys => if x = y then bytesBefore xs ys else x.blt y

/-- Every text of the list comes after the one before it. -/
def isAscending : List Nat → List String → Bool
  | _, [] => true
  | prev, w :: ws => bytesBefore prev (textBytes w) && isAscending (textBytes w) ws

/-- How numbered names and the classes of functions begin. -/
def reservedBeginnings : List (List Nat) := [textBytes "ident", textBytes "function"]

/-- A text of lowercase letters that names no class of a language and does not begin like one. -/
def isPlainWord (w : String) : Bool :=
  w.front.isLower && (textBytes w).all (fun n => Nat.ble 97 n && Nat.ble n 122) &&
    w != "array" && w != "iterator" && !reservedBeginnings.any (·.isPrefixOf (textBytes w))

theorem wordList_isAscending : isAscending [] wordList := by decide +kernel

theorem wordList_isPlain : ∀ w ∈ wordList, isPlainWord w := by decide +kernel

theorem bytesBefore_trans {xs ys zs : List Nat} (h1 : bytesBefore xs ys) (h2 : bytesBefore ys zs) :
    bytesBefore xs zs := by
  induction xs generalizing ys zs with
  | nil =>
    cases zs with
    | nil => cases ys <;> simp [bytesBefore] at h1 h2
    | cons z zs => rfl
  | cons x xs ih =>
    cases ys with
    | nil => simp [bytesBefore] at h1
    | cons y ys =>
      cases zs with
      | nil => simp [bytesBefore] at h2
      | cons z zs =>
        simp only [bytesBefore] at h1 h2 ⊢
        by_cases hxy : x = y
        · subst hxy
          by_cases hyz : x = z
          · simp only [hyz, if_true] at h1 h2 ⊢
            exact ih h1 h2
          · simpa [hyz] using h2
        · by_cases hyz : y = z
          · subst hyz
            simpa [hxy] using h1
          · simp only [hxy, hyz, if_false, Nat.blt_eq] at h1 h2
            have : x ≠ z := by omega
            simp only [this, if_false, Nat.blt_eq]
            omega

theorem bytesBefore_irrefl (xs : List Nat) : bytesBefore xs xs = false := by
  induction xs with
  | nil => rfl
  | cons x xs ih => simp [bytesBefore, ih]

theorem before_of_isAscending {prev : List Nat} {ws : List String} (h : isAscending prev ws) :
    ∀ w ∈ ws, bytesBefore prev (textBytes w) := by
  induction ws generalizing prev with
  | nil => simp
  | cons v ws ih =>
    simp only [isAscending, Bool.and_eq_true] at h
    intro w hw
    rcases List.mem_cons.mp hw with rfl | hw
    · exact h.1
    · exact bytesBefore_trans h.1 (ih h.2 w hw)

theorem nodup_of_isAscending {prev : List Nat} {ws : List String} (h : isAscending prev ws) :
    ws.Nodup := by
  induction ws generalizing prev with
  | nil => exact List.nodup_nil
  | cons v ws ih =>
    simp only [isAscending, Bool.and_eq_true] at h
    refine List.nodup_cons.mpr ⟨fun hv => ?_, ih h.2⟩
    have := before_of_isAscending h.2 v hv
    rw [bytesBefore_irrefl] at this
    exact absurd this (by decide)

/-- No word begins in one of the reserved ways. -/
theorem append_notMem_wordList {s : String} (hs : textBytes s ∈ reservedBeginnings) (t : String) :
    s ++ t ∉ wordList := by
  intro h
  have hplain := wordList_isPlain _ h
  simp only [isPlainWord, Bool.and_eq_true, Bool.not_eq_true', List.any_eq_false] at hplain
  have := hplain.2 _ hs
  simp [textBytes_append, List.isPrefixOf_iff_prefix] at this

theorem wordList_nodup : wordList.Nodup := nodup_of_isAscending wordList_isAscending

/-! ## Capitals -/

/-- The text begins with a lowercase letter. -/
def StartsLower (w : String) : Prop := ∃ c cs, w.toList = c :: cs ∧ c.isLower

theorem isLower_iff {c : Char} : c.isLower ↔ 'a'.val ≤ c.val ∧ c.val ≤ 'z'.val := by
  show (decide (c.val ≥ 'a'.val) && decide (c.val ≤ 'z'.val)) = true ↔ _
  rw [Bool.and_eq_true, decide_eq_true_eq, decide_eq_true_eq]

theorem toNat_of_isLower {c : Char} (h : c.isLower) : 97 ≤ c.toNat ∧ c.toNat ≤ 122 :=
  isLower_iff.mp h

theorem toNat_toUpper {c : Char} (h : c.isLower) : c.toUpper.toNat + 32 = c.toNat := by
  obtain ⟨h1, h2⟩ := toNat_of_isLower h
  replace h := isLower_iff.mp h
  have hval : c.toUpper.val = c.val + ('A'.val - 'a'.val) := by
    show Char.val (if h : _ then _ else _) = _
    rw [dif_pos h]
  have hshift : ('A'.val - 'a'.val).toNat = 2 ^ 32 - 32 := by decide
  simp only [Char.toNat] at h1 h2 ⊢
  rw [hval, UInt32.toNat_add, hshift]
  omega

theorem toList_capitalize {w : String} {c : Char} {cs : List Char} (hw : w.toList = c :: cs)
    (hc : c.isLower) : (capitalize w).toList = c.toUpper :: cs := by
  have hlt : c.toNat < 128 := by
    have := (toNat_of_isLower hc).2
    omega
  simp [capitalize, hw, uppercaseForm, hlt]

/-- **Capitalized, different names stay different.** -/
theorem capitalize_injective {v w : String} (hv : StartsLower v) (hw : StartsLower w)
    (h : capitalize v = capitalize w) : v = w := by
  obtain ⟨c, cs, hvl, hc⟩ := hv
  obtain ⟨d, ds, hwl, hd⟩ := hw
  have hlist := congrArg String.toList h
  rw [toList_capitalize hvl hc, toList_capitalize hwl hd, List.cons.injEq] at hlist
  have hcd : c = d := by
    have h1 := toNat_toUpper hc
    have h2 := toNat_toUpper hd
    rw [hlist.1] at h1
    exact Char.toNat_inj.mp (h1.symm.trans h2)
  rw [← String.toList_inj, hvl, hwl, hcd, hlist.2]

theorem startsLower_of_isPlain {w : String} (h : isPlainWord w) : StartsLower w := by
  simp only [isPlainWord, Bool.and_eq_true] at h
  have hfront := h.1.1.1.1
  rw [String.front_eq, String.front?_eq] at hfront
  cases hw : w.toList with
  | nil => simp [hw] at hfront
  | cons c cs => exact ⟨c, cs, hw, by simpa [hw] using hfront⟩

theorem StartsLower.append {w : String} (h : StartsLower w) (t : String) : StartsLower (w ++ t) := by
  obtain ⟨c, cs, hw, hc⟩ := h
  exact ⟨c, cs ++ t.toList, by simp [hw], hc⟩

/-- A capitalized name does not begin in lowercase. -/
theorem not_startsLower_capitalize {w : String} (h : StartsLower w) :
    ¬StartsLower (capitalize w) := by
  obtain ⟨c, cs, hw, hc⟩ := h
  rintro ⟨d, ds, hd, hlower⟩
  rw [toList_capitalize hw hc, List.cons.injEq] at hd
  have h1 := toNat_toUpper hc
  have h2 := (toNat_of_isLower hc).2
  have h3 := (toNat_of_isLower hlower).1
  rw [← hd.1] at h3
  omega

end ProgramGen

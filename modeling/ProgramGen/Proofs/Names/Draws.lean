import ProgramGen.Proofs.Names.Pool

/-!
# Identifiers

The identifiers of a program are drawn one after the other, plain ones and the names of classes mixed.
What the pool has given it never offers again, in neither form, so no two draws give the same name;
and as words and numbers begin in lowercase and class names do not, no two sorts of name meet.
-/

namespace ProgramGen

variable {l : Language} {v w n : String}

/-- The text begins with an uppercase letter. -/
def StartsUpper (w : String) : Prop := ∃ c cs, w.toList = c :: cs ∧ c.isUpper

theorem isUpper_iff {c : Char} : c.isUpper ↔ 65 ≤ c.toNat ∧ c.toNat ≤ 90 := by
  show decide (c.val ≥ 'A'.val ∧ c.val ≤ 'Z'.val) = true ↔ _
  rw [decide_eq_true_eq]
  exact Iff.rfl

theorem StartsLower.startsUpper_capitalize (h : StartsLower w) : StartsUpper (capitalize w) := by
  obtain ⟨c, cs, hw, hc⟩ := h
  have hrange := toNat_of_isLower hc
  have hshift := toNat_toUpper hc
  exact ⟨c.toUpper, cs, toList_capitalize hw hc, isUpper_iff.mpr (by omega)⟩

/-! ## Sorts of identifier -/

/-- The sorts of identifier. -/
inductive NameKind where
  | word
  | className
  deriving DecidableEq, Repr

namespace NameKind

/-- The identifier that is made of what the pool gives. -/
def form : NameKind → String → String
  | word, w => w
  | className, w => capitalize w

/-- How an identifier of the sort begins. -/
def Begins : NameKind → String → Prop
  | word, n => StartsLower n
  | className, n => StartsUpper n

theorem begins_form (k : NameKind) (h : StartsLower w) : k.Begins (k.form w) := by
  cases k with
  | word => exact h
  | className => exact h.startsUpper_capitalize

/-- **An identifier tells its sort and what it is made of.** -/
theorem form_injective {k j : NameKind} (hv : StartsLower v) (hw : StartsLower w)
    (h : k.form v = j.form w) : v = w := by
  cases k with
  | word =>
    cases j with
    | word => exact h
    | className =>
      have h : v = capitalize w := h
      exact absurd (h ▸ hv) (not_startsLower_capitalize hw)
  | className =>
    cases j with
    | word =>
      have h : capitalize v = w := h
      exact absurd (h.symm ▸ hw) (not_startsLower_capitalize hv)
    | className => exact capitalize_injective hv hw h

end NameKind

/-! ## Reserved words -/

theorem startsLower_of_reserved : ∀ w ∈ l.reservedWords, StartsLower w := by
  have hfront : ∀ w ∈ l.reservedWords, w.toList.head?.any Char.isLower := by cases l <;> decide
  intro w hw
  have h := hfront w hw
  cases hlist : w.toList with
  | nil => simp [hlist] at h
  | cons c cs => exact ⟨c, cs, hlist, by simpa [hlist] using h⟩

/-- No reserved word begins like a numbered name. -/
theorem numberedName_notReserved (k : Nat) : WordPool.numberedName k ∉ l.reservedWords := by
  have hbeginning : ∀ w ∈ l.reservedWords, w.toList.take 5 ≠ "ident".toList := by cases l <;> decide
  intro h
  refine hbeginning _ h ?_
  rw [WordPool.numberedName, String.toList_append]
  exact List.take_left' rfl

namespace WordPool

variable {p p' : WordPool}

/-- The pool offers nothing that the language reserves. -/
def Avoids (p : WordPool) (l : Language) : Prop := ∀ w, p.Offers w → w ∉ l.reservedWords

theorem avoids_full (l : Language) : (full l).Avoids l := by
  rintro w (h | ⟨k, -, rfl⟩)
  · simp only [full, List.mem_filter] at h
    simpa using h.2
  · exact numberedName_notReserved k

/-- What is made of an offer is not reserved in either form. -/
theorem Avoids.form (h : p.Avoids l) (hp : p.Sound) (hw : p.Offers w) (k : NameKind) :
    k.form w ∉ l.reservedWords := by
  cases k with
  | word => exact h w hw
  | className => exact fun hmem =>
      not_startsLower_capitalize (hw.startsLower hp) (startsLower_of_reserved _ hmem)

end WordPool

/-! ## Draws -/

namespace Source

variable {s : Source}

/-- Draw an identifier. -/
def identifier (s : Source) : NameKind → String × Source
  | .word => s.word
  | .className => s.className

/-- Draw identifiers, one after the other. -/
def identifiers (s : Source) : List NameKind → List String
  | [] => []
  | k :: ks => (s.identifier k).1 :: (s.identifier k).2.identifiers ks

/-- **What is drawn is taken out of the pool**, whatever identifier is made of it. -/
theorem drawn_identifier (h : s.pool.Sound) (k : NameKind) :
    ∃ w, (s.identifier k).1 = k.form w ∧ s.pool.Drawn w (s.identifier k).2.pool := by
  have hdrawn := WordPool.drawn_word h s.stream
  cases k with
  | word => exact ⟨_, rfl, hdrawn⟩
  | className => exact ⟨_, rfl, hdrawn⟩

/-- Identifiers that are drawn are made of what the pool offers before the first of them. -/
theorem forall₂_identifiers (h : s.pool.Sound) (ks : List NameKind) :
    List.Forall₂ (fun k n => ∃ w, n = k.form w ∧ s.pool.Offers w) ks (s.identifiers ks) := by
  induction ks generalizing s with
  | nil => exact .nil
  | cons k ks ih =>
    obtain ⟨w, hw, hdrawn⟩ := drawn_identifier h k
    refine .cons ⟨w, hw, hdrawn.offered⟩ ((ih hdrawn.sound).imp ?_)
    rintro j n ⟨v, rfl, hv⟩
    exact ⟨v, rfl, hdrawn.offers v hv⟩

theorem exists_offer_of_mem (h : s.pool.Sound) {ks : List NameKind} (hn : n ∈ s.identifiers ks) :
    ∃ k w, n = NameKind.form k w ∧ s.pool.Offers w := by
  obtain ⟨i, hi, rfl⟩ := List.mem_iff_getElem.mp hn
  have hall := forall₂_identifiers h ks
  obtain ⟨w, hw⟩ := hall.get (hall.length_eq ▸ hi) hi
  exact ⟨_, w, hw⟩

/-- **No identifier comes twice.** -/
theorem nodup_identifiers (h : s.pool.Sound) (ks : List NameKind) : (s.identifiers ks).Nodup := by
  induction ks generalizing s with
  | nil => exact List.nodup_nil
  | cons k ks ih =>
    obtain ⟨w, hw, hdrawn⟩ := drawn_identifier h k
    refine List.nodup_cons.mpr ⟨fun hmem => ?_, ih hdrawn.sound⟩
    obtain ⟨j, v, hv, hoffered⟩ := exists_offer_of_mem hdrawn.sound hmem
    have hlower := hdrawn.offered.startsLower h
    -- It would be made of the same word, which is gone.
    obtain rfl := NameKind.form_injective hlower (hoffered.startsLower hdrawn.sound) (hw.symm.trans hv)
    exact hdrawn.gone hoffered

/-- Identifiers in the order in which they were asked for, fit to name things in a program. -/
structure Fresh (l : Language) (ks : List NameKind) (ns : List String) : Prop where
  nodup : ns.Nodup
  unreserved : ∀ n ∈ ns, n ∉ l.reservedWords
  begins : List.Forall₂ NameKind.Begins ks ns

theorem fresh_identifiers (h : s.pool.Sound) (havoids : s.pool.Avoids l) (ks : List NameKind) :
    Fresh l ks (s.identifiers ks) where
  nodup := nodup_identifiers h ks
  unreserved n hn := by
    obtain ⟨k, w, rfl, hw⟩ := exists_offer_of_mem h hn
    exact havoids.form h hw k
  begins := (forall₂_identifiers h ks).imp fun k n => by
    rintro ⟨w, rfl, hw⟩
    exact k.begins_form (hw.startsLower h)

/-- **Identifiers are fresh**, however many are drawn and in whatever order, from a new source and from
one that has been reset: no two are the same, none is reserved, and the first letter tells the sort. -/
theorem identifiers_fresh (seed : UInt64) (l : Language) (ks : List NameKind) :
    Fresh l ks ((ofSeed seed l).identifiers ks) ∧
      ∀ s : Source, Fresh l ks ((s.reset seed l).identifiers ks) :=
  ⟨fresh_identifiers (WordPool.sound_full l) (WordPool.avoids_full l) ks, fun _ =>
    fresh_identifiers (WordPool.sound_full l) (WordPool.avoids_full l) ks⟩

end Source

end ProgramGen

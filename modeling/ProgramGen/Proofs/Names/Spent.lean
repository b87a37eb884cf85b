import ProgramGen.Proofs.Names.Pool
import ProgramGen.Proofs.Run.Logic

/-!
# Names that are spent

A name comes from the pool, as it is or capitalized, or it is made of a stem and a counter. What is
not to come any more is spent: whatever is drawn or counted later is another name. Names that the
generator uses on its own are spent from the start.
-/

namespace ProgramGen

variable {s : Session} {n w stem : String} {k : Nat}

/-! ## Uppercase -/

theorem StartsLower.startsUppercase (h : StartsLower w) : startsUppercase w = false := by
  obtain ⟨c, cs, hw, hc⟩ := h
  obtain ⟨h1, h2⟩ := toNat_of_isLower hc
  have hlt : c.toNat < 128 := by omega
  have hval : c.val.toNat = c.toNat := rfl
  simp only [ProgramGen.startsUppercase, hw, List.head?_cons, Option.any_some, isUppercase, hlt, if_true]
  show decide (c.val ≥ 'A'.val ∧ c.val ≤ 'Z'.val) = false
  rw [decide_eq_false_iff_not]
  rintro ⟨-, h⟩
  have := UInt32.le_iff_toNat_le.mp h
  rw [hval] at this
  have hz : ('Z'.val : UInt32).toNat = 90 := rfl
  omega

theorem StartsLower.startsUppercase_capitalize (h : StartsLower w) :
    ProgramGen.startsUppercase (capitalize w) = true := by
  obtain ⟨c, cs, hw, hc⟩ := h
  obtain ⟨h1, h2⟩ := toNat_of_isLower hc
  have hup := toNat_toUpper hc
  have hlt : c.toUpper.toNat < 128 := by omega
  have hval : c.toUpper.val.toNat = c.toUpper.toNat := rfl
  simp only [ProgramGen.startsUppercase, toList_capitalize hw hc, List.head?_cons, Option.any_some,
    isUppercase, hlt, if_true]
  show decide (c.toUpper.val ≥ 'A'.val ∧ c.toUpper.val ≤ 'Z'.val) = true
  rw [decide_eq_true_eq]
  exact ⟨UInt32.le_iff_toNat_le.mpr (by rw [hval]; show 65 ≤ _; omega),
    UInt32.le_iff_toNat_le.mpr (by rw [hval]; show _ ≤ 90; omega)⟩

/-! ## Counted names -/

/-- What counted names begin with. -/
def countedStems : List String := ["lambda_", "loop_", "true_block_", "false_block_"]

/-- The stems of counted names, each with the last number that was used. -/
def Session.counters (s : Session) : List (String × Nat) :=
  countedStems.zip [s.lambdaCount, s.loopCount, s.branchCount, s.branchCount]

theorem Session.mem_countedStems (h : (stem, k) ∈ s.counters) : stem ∈ countedStems :=
  (List.of_mem_zip h).1

theorem startsLower_of_mem_countedStems (h : stem ∈ countedStems) (t : String) :
    StartsLower (stem ++ t) := by
  refine StartsLower.append ?_ t
  revert stem
  simp only [countedStems, List.forall_mem_cons, List.not_mem_nil, false_implies, implies_true, and_true]
  exact ⟨⟨'l', _, rfl, rfl⟩, ⟨'l', _, rfl, rfl⟩, ⟨'t', _, rfl, rfl⟩, ⟨'f', _, rfl, rfl⟩⟩

/-- The first two letters tell the stems from one another, and from numbered names. -/
theorem take_two_append {v : String} (hv : 2 ≤ v.toList.length) (t : String) :
    (v ++ t).toList.take 2 = v.toList.take 2 := by
  rw [String.toList_append, List.take_append_of_le_length hv]

theorem two_le_length_of_mem_countedStems : ∀ v ∈ countedStems, 2 ≤ v.toList.length := by decide

theorem counted_injective {stem' t t' : String} (h : stem ∈ countedStems) (h' : stem' ∈ countedStems)
    (heq : stem ++ t = stem' ++ t') : stem = stem' ∧ t = t' := by
  have htake := congrArg (fun v : String => v.toList.take 2) heq
  simp only [take_two_append (two_le_length_of_mem_countedStems _ h),
    take_two_append (two_le_length_of_mem_countedStems _ h')] at htake
  have hinj : ∀ v ∈ countedStems, ∀ v' ∈ countedStems, v.toList.take 2 = v'.toList.take 2 →
      v = v' := by decide
  obtain rfl := hinj _ h _ h' htake
  exact ⟨rfl, (String.append_right_inj stem).mp heq⟩

/-- No name of the pool is a counted one. -/
theorem WordPool.Offers.ne_counted {p : WordPool} (hp : p.Sound) (h : p.Offers w)
    (hstem : stem ∈ countedStems) (t : String) : w ≠ stem ++ t := by
  rintro rfl
  rcases h.cases hp with h | ⟨k, h⟩
  · have hplain := wordList_isPlain _ h
    simp only [isPlainWord, Bool.and_eq_true, textBytes_append, List.all_append] at hplain
    have hletters := hplain.1.1.1.2.1
    have hmark : ∀ v ∈ countedStems,
        (textBytes v).all (fun n => Nat.ble 97 n && Nat.ble n 122) = false := by decide +kernel
    rw [hmark _ hstem] at hletters
    cases hletters
  · have htake := congrArg (fun v : String => v.toList.take 2) h
    rw [WordPool.numberedName] at htake
    simp only [take_two_append (two_le_length_of_mem_countedStems _ hstem),
      take_two_append (show 2 ≤ "ident".toList.length by decide)] at htake
    have hne : ∀ v ∈ countedStems, v.toList.take 2 ≠ "ident".toList.take 2 := by decide
    exact hne _ hstem htake

/-! ## Names to come -/

/-- The name may still be given to something. -/
inductive Session.Upcoming (s : Session) : String → Prop where
  | word {v : String} (h : s.source.pool.Offers v) : Upcoming s v
  | className {v : String} (h : s.source.pool.Offers v) : Upcoming s (capitalize v)
  | counted {v : String} {count j : Nat} (h : (v, count) ∈ s.counters) (hj : count < j) :
      Upcoming s (v ++ toString j)

/-- The name will not be given to anything new. -/
def Session.Spent (s : Session) (n : String) : Prop := ¬s.Upcoming n

/-- Later names come from the same pool and the same counters. -/
theorem Session.Upcoming.of_source {s' : Session} (h : s'.Upcoming n)
    (hoffers : ∀ w, s'.source.pool.Offers w → s.source.pool.Offers w)
    (hlambda : s.lambdaCount ≤ s'.lambdaCount) (hloop : s.loopCount ≤ s'.loopCount)
    (hbranch : s.branchCount ≤ s'.branchCount) : s.Upcoming n := by
  cases h with
  | word h => exact .word (hoffers _ h)
  | className h => exact .className (hoffers _ h)
  | @counted stem count k h hk =>
    have hcounter : ∃ count', (stem, count') ∈ s.counters ∧ count' ≤ count := by
      simp only [counters, countedStems, List.zip_cons_cons, List.zip_nil_right, List.mem_cons,
        Prod.mk.injEq, List.not_mem_nil, or_false] at h ⊢
      rcases h with ⟨rfl, rfl⟩ | ⟨rfl, rfl⟩ | ⟨rfl, rfl⟩ | ⟨rfl, rfl⟩
      · exact ⟨_, .inl ⟨rfl, rfl⟩, hlambda⟩
      · exact ⟨_, .inr (.inl ⟨rfl, rfl⟩), hloop⟩
      · exact ⟨_, .inr (.inr (.inl ⟨rfl, rfl⟩)), hbranch⟩
      · exact ⟨_, .inr (.inr (.inr ⟨rfl, rfl⟩)), hbranch⟩
    obtain ⟨count', h', hle⟩ := hcounter
    exact .counted h' (Nat.lt_of_le_of_lt hle hk)

namespace Session

/-- A name in lowercase that is neither a word nor counted is never given to anything. -/
theorem spent_of_fixed (hp : s.source.pool.Sound) (hlower : StartsLower n) (hword : n ∉ wordList)
    (hnumber : n.toList.take 2 ≠ "ident".toList.take 2)
    (hcounted : ∀ stem ∈ countedStems, n.toList.take 2 ≠ stem.toList.take 2) : s.Spent n := by
  intro h
  cases h with
  | word h =>
    rcases h.cases hp with h | ⟨k, rfl⟩
    · exact hword h
    · exact hnumber (take_two_append (by decide) _)
  | className h => exact not_startsLower_capitalize (h.startsLower hp) hlower
  | counted h hk =>
    have hstem := s.mem_countedStems h
    exact hcounted _ hstem (take_two_append (two_le_length_of_mem_countedStems _ hstem) _)

/-- What the generator names without drawing a name: the object in its own class, the function that a
program starts with, the parameter of it, and the scope of the top level. -/
def fixedNames : List String := ["this", "main", "args", Namespace.globalSegment]

theorem not_mem_wordList_of_fixed : ∀ n ∈ fixedNames, n ∉ wordList := by decide +kernel

theorem take_two_of_fixed : ∀ n ∈ fixedNames, n.toList.take 2 ≠ "ident".toList.take 2 ∧
    ∀ stem ∈ countedStems, n.toList.take 2 ≠ stem.toList.take 2 := by decide +kernel

theorem startsLower_of_fixed (h : n ∈ fixedNames) : StartsLower n := by
  simp only [fixedNames, List.mem_cons, List.not_mem_nil, or_false] at h
  rcases h with rfl | rfl | rfl | rfl
  · exact ⟨'t', ['h', 'i', 's'], rfl, rfl⟩
  · exact ⟨'m', ['a', 'i', 'n'], rfl, rfl⟩
  · exact ⟨'a', ['r', 'g', 's'], rfl, rfl⟩
  · exact ⟨'g', ['l', 'o', 'b', 'a', 'l'], rfl, rfl⟩

/-- Fixed names are spent from the start. -/
theorem spent_fixed (hp : s.source.pool.Sound) (h : n ∈ fixedNames) : s.Spent n :=
  spent_of_fixed hp (startsLower_of_fixed h) (not_mem_wordList_of_fixed n h) (take_two_of_fixed n h).1
    (take_two_of_fixed n h).2

/-- A word that is drawn was to come and is spent then, and so is the class name made of it. -/
theorem spent_of_drawn {s' : Session} (hp : s.source.pool.Sound)
    (h : s.source.pool.Drawn w s'.source.pool) :
    s'.Spent w ∧ s'.Spent (capitalize w) := by
  have hlower := h.offered.startsLower hp
  constructor
  · intro hup
    generalize hn : w = n at hup
    cases hup with
    | word h' => exact h.gone (hn ▸ h')
    | className h' =>
      exact not_startsLower_capitalize (h'.startsLower h.sound) (hn ▸ hlower)
    | counted h' hk => exact h.offered.ne_counted hp (s'.mem_countedStems h') _ hn
  · intro hup
    generalize hn : capitalize w = n at hup
    cases hup with
    | word h' => exact not_startsLower_capitalize hlower (hn ▸ h'.startsLower h.sound)
    | className h' =>
      rw [capitalize_injective hlower (h'.startsLower h.sound) hn] at h
      exact h.gone h'
    | counted h' hk =>
      exact not_startsLower_capitalize hlower
        (hn ▸ startsLower_of_mem_countedStems (s'.mem_countedStems h') _)

/-- A counted name is spent once the counter has come to it. -/
theorem spent_of_counter (hp : s.source.pool.Sound) {count : Nat} (h : (stem, count) ∈ s.counters)
    (hk : k ≤ count) : s.Spent (stem ++ toString k) := by
  have hstem := s.mem_countedStems h
  intro hup
  generalize hn : stem ++ toString k = n at hup
  cases hup with
  | word h' => exact h'.ne_counted hp hstem _ hn.symm
  | className h' =>
    exact not_startsLower_capitalize (h'.startsLower hp)
      (hn ▸ startsLower_of_mem_countedStems hstem _)
  | @counted stem' count' k' h' hk' =>
    obtain ⟨rfl, htext⟩ := counted_injective hstem (s.mem_countedStems h') hn
    have hcount : count = count' := by
      simp only [counters, countedStems, List.zip_cons_cons, List.zip_nil_right, List.mem_cons,
        Prod.mk.injEq, List.not_mem_nil, or_false] at h h'
      rcases h with ⟨rfl, rfl⟩ | ⟨rfl, rfl⟩ | ⟨rfl, rfl⟩ | ⟨rfl, rfl⟩ <;> simp_all
    have := Nat.repr_injective htext
    omega

end Session

end ProgramGen

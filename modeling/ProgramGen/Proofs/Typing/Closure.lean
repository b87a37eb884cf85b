import ProgramGen.Proofs.Binding.Instantiation
import ProgramGen.Ty.Unify

/-!
# Properties of types that the generator keeps

An argument is given, is one of the types at hand, or is a bound in which the parameters before it
stand for their arguments. So a property of types that passes to the parts of a type, and from a type
and what is substituted to the result, holds of all that unification and instantiation bind when it
holds of the types at hand.
-/

namespace ProgramGen

variable {P : Ty → Prop} {t u : Ty} {c : TypeCtor} {args : List Ty} {p : TypeParam}
variable {m m' fixed : Subst} {ps : List TypeParam} {types : List Ty}

theorem Subst.mem_insertEntry {x : TypeParam × Ty} {xs : List (TypeParam × Ty)}
    (h : x ∈ insertEntry p t xs) : x ∈ xs ∨ x.2 = t := by
  induction xs with
  | nil => simp_all [insertEntry]
  | cons y ys ih =>
    rw [insertEntry] at h
    split at h <;> grind

/-- A binding that unification makes is the only change. -/
theorem Subst.eq_of_bindTo? {r : Subst} (h : m.bindTo? p t = some r) : r = m ∨ r = m.insert p t := by
  have hif : ∀ (b : Bool) (x y : Option Subst), (if b then x else y) = some r →
      x = some r ∨ y = some r := by
    intro b x y h
    cases b
    · exact .inr h
    · exact .inl h
  unfold Subst.bindTo? at h
  rcases hif _ _ _ h with h | h
  · exact .inl (Option.some.inj h).symm
  · split at h
    · split at h
      · exact .inl (Option.some.inj h).symm
      · cases h
    · split at h
      · split at h
        · exact .inr (Option.some.inj h).symm
        · cases h
      · exact .inr (Option.some.inj h).symm

/-! ## Arguments -/

/-- What an argument for `p` can be, where the parameters before it stand for what `m` says. -/
inductive ArgumentFor (types : List Ty) (fixed : Subst) (p : TypeParam) (m : Subst) (t : Ty) : Prop where
  | fixed (h : fixed.get? p = some t)
  | candidate (h : t ∈ types) (hargument : t.isArgument)
  | bound {b} (hb : p.bound = some b) (ht : t = b.subst m) (hvar : t.isVariable = false)

/-- Parameters that are given arguments in order, and what they stand for then. -/
inductive Filled (types : List Ty) (fixed : Subst) :
    List TypeParam → Subst → List Ty → Subst → Prop where
  | nil {σ} : Filled types fixed [] σ [] σ
  | cons {q qs σ a as τ} (h : ArgumentFor types fixed q σ a)
      (rest : Filled types fixed qs (σ.insert q a) as τ) :
      Filled types fixed (q :: qs) σ (a :: as) τ

theorem TypeParam.Receives.argumentFor (h : p.Receives types fixed m t) :
    ArgumentFor types fixed p m t := by
  cases h with
  | given h => exact .fixed h
  | drawn _ h =>
    obtain h | ⟨b, hb, ht, hvar⟩ := mem_or_eq_of_pickArgument h
    · simp only [argumentCandidates, List.mem_filter, Bool.and_eq_true] at h
      exact .candidate h.1 h.2.1
    · exact .bound hb ht hvar

/-- **An instantiation gives every parameter an argument that it can have.** -/
theorem filled_of_instantiateParams {written : List Ty}
    (h : (instantiateParams types fixed [] false ps m args).CanGive (some (written, m'))) :
    ∃ ts, written = args ++ ts ∧ Filled types fixed ps m ts m' := by
  induction ps generalizing m args with
  | nil =>
    rw [instantiateParams, Rand.canGive_pure] at h
    cases h
    exact ⟨[], by simp, .nil⟩
  | cons p ps ih =>
    obtain ⟨a, w, ha, hw, hrest⟩ := exists_of_instantiateParams_cons h
    obtain rfl : w = a := hw.eq_of_lookup_eq_none rfl
    obtain ⟨ts, rfl, hts⟩ := ih hrest
    exact ⟨w :: ts, by simp, .cons ha.argumentFor hts⟩

theorem filled_of_instantiate
    (h : (c.instantiate types fixed [] false).CanGive (some (t, m))) :
    ∃ ts, t = .applied c ts ∧ Filled types fixed c.params ∅ ts m := by
  obtain ⟨r, hr, h⟩ := Rand.CanGive.bind h
  rw [Rand.canGive_pure] at h
  obtain ⟨⟨written, m'⟩, rfl, hw⟩ := Option.map_eq_some_iff.mp h
  cases hw
  obtain ⟨ts, hts, hfilled⟩ := filled_of_instantiateParams hr
  exact ⟨ts, by rw [hts]; rfl, hfilled⟩

theorem Filled.length_eq (h : Filled types fixed ps m args m') :
    args.length = ps.length := by
  induction h with
  | nil => rfl
  | cons _ _ ih => simp [ih]

/-! ## Closed properties -/

/-- The property passes to the parts of a type, and substitution keeps it. -/
structure Ty.Closed (P : Ty → Prop) : Prop where
  arg : ∀ {c args t}, P (.applied c args) → t ∈ args → P t
  bound : ∀ {p b}, P (.param p) → p.bound = some b → P b
  wildcard : ∀ {v b}, P (.wildcard v (some b)) → P b
  subst : ∀ {t m}, P t → (∀ n u, Subst.lookup m n = some u → P u) → P (t.subst m)

/-- Everything that the substitution binds to has the property. -/
def Subst.All (P : Ty → Prop) (m : Subst) : Prop := ∀ x ∈ m.entries, P x.2

namespace Subst.All

theorem lookup (hm : m.All P) {n : String} (h : m.lookup n = some u) : P u := by
  obtain ⟨x, hx, rfl⟩ := Option.map_eq_some_iff.mp h
  exact hm x (List.mem_of_find?_eq_some hx)

theorem empty : (∅ : Subst).All P := fun _ h => by cases h

theorem insert (hm : m.All P) (ht : P t) : (m.insert p t).All P := by
  intro x hx
  rcases mem_insertEntry hx with hx | hx
  · exact hm x hx
  · exact hx ▸ ht

theorem ofList {L : List (TypeParam × Ty)} (h : ∀ x ∈ L, P x.2) : (ofList L).All P := by
  induction L using List.reverseRecOn with
  | nil => exact empty
  | append_singleton L x ih =>
    rw [ofList_append_singleton]
    exact (ih fun y hy => h y (by simp [hy])).insert (h x (by simp))

theorem ofArgs (h : ∀ a ∈ args, P a) : (ofArgs ps args).All P :=
  ofList fun _ hx => h _ (List.of_mem_zip hx).2

theorem insertMissing (hm : m.All P) (hm' : m'.All P) : (m.insertMissing m').All P := by
  obtain ⟨xs⟩ := m'
  unfold Subst.insertMissing
  induction xs generalizing m with
  | nil => exact hm
  | cons x xs ih =>
    refine ih ?_ fun y hy => hm' y (List.mem_cons_of_mem _ hy)
    show (if m.contains x.1 then m else ⟨m.entries ++ [x]⟩ : Subst).All P
    split
    · exact hm
    · exact List.forall_mem_append.mpr ⟨hm, by simpa using hm' x List.mem_cons_self⟩

theorem bindTo? {r : Subst} (hm : m.All P) (ht : P t) (h : m.bindTo? p t = some r) : r.All P := by
  rcases eq_of_bindTo? h with rfl | rfl
  · exact hm
  · exact hm.insert ht

theorem unifyListWith {xs ys : List Ty} {r : Subst}
    (ih : ∀ x ∈ xs, ∀ (m r : Subst) (a : Ty), m.All P → P a → m.unifyWith x a = some r → r.All P)
    (hm : m.All P) (hys : ∀ y ∈ ys, P y) (h : m.unifyListWith xs ys = some r) : r.All P := by
  induction xs generalizing ys m with
  | nil =>
    rw [Subst.unifyListWith] at h
    · cases h
      exact hm
    · simp
  | cons x xs ihxs =>
    cases ys with
    | nil =>
      rw [Subst.unifyListWith] at h
      · cases h
        exact hm
      · simp
    | cons y ys =>
      rw [Subst.unifyListWith] at h
      split at h
      · have hm' := ih x List.mem_cons_self _ _ y hm (hys y List.mem_cons_self) ‹_›
        exact ihxs (fun z hz => ih z (List.mem_cons_of_mem _ hz)) hm'
          (fun z hz => hys z (List.mem_cons_of_mem _ hz)) h
      · cases h

/-- **Unification binds to types that it finds on either side.** -/
theorem unifyWith (hP : Ty.Closed P) {e a : Ty} {r : Subst} (hm : m.All P) (he : P e) (ha : P a)
    (h : m.unifyWith e a = some r) : r.All P := by
  induction hsize : sizeOf e using Nat.strongRecOn generalizing e a m r with
  | _ n ih =>
    rw [Subst.unifyWith.eq_def] at h
    split at h
    · exact hm.bindTo? he h
    · exact hm.bindTo? ha h
    · split at h
      · refine unifyListWith (fun x hx m r a hm ha h => ?_) hm (fun y hy => hP.arg ha hy) h
        refine ih (sizeOf x) ?_ hm (hP.arg he hx) ha h rfl
        have := List.sizeOf_lt_of_mem hx
        simp only [Ty.applied.sizeOf_spec] at hsize
        omega
      · cases h
    · split at h
      · split at h
        · refine ih _ ?_ hm (hP.wildcard he) (hP.wildcard ha) h rfl
          simp only [Ty.wildcard.sizeOf_spec, Option.some.sizeOf_spec] at hsize
          omega
        · cases h
          exact hm
        · cases h
      · cases h
    · split at h
      · cases h
        exact hm
      · cases h

theorem argMap (hP : Ty.Closed P) (ht : P t) : t.argMap.All P := by
  cases t with
  | applied c args => exact ofArgs fun a ha => hP.arg ht ha
  | _ => exact empty

end Subst.All

theorem Ty.Closed.unify? (hP : Ty.Closed P) {e a : Ty} (he : P e) (ha : P a)
    (h : e.unify? a = some m) : m.All P :=
  Subst.All.empty.unifyWith hP he ha h

theorem Ty.Closed.subst_all (hP : Ty.Closed P) (ht : P t) (hm : m.All P) : P (t.subst m) :=
  hP.subst ht fun _ _ => hm.lookup

/-! ## Instantiation -/

theorem ArgumentFor.closed (hP : Ty.Closed P) (h : ArgumentFor types fixed p m t)
    (htypes : ∀ u ∈ types, u.isArgument → P u) (hfixed : fixed.All P) (hp : P (.param p))
    (hm : m.All P) : P t := by
  cases h with
  | fixed h => exact hfixed.lookup h
  | candidate h hargument => exact htypes t h hargument
  | bound hb ht => exact ht ▸ hP.subst_all (hP.bound hp hb) hm

/-- **Arguments drawn from types with the property have it.** -/
theorem Filled.closed (hP : Ty.Closed P) (h : Filled types fixed ps m args m')
    (htypes : ∀ u ∈ types, u.isArgument → P u) (hfixed : fixed.All P)
    (hps : ∀ p ∈ ps, P (.param p)) (hm : m.All P) : (∀ a ∈ args, P a) ∧ m'.All P := by
  induction h with
  | nil => exact ⟨by simp, hm⟩
  | cons h _ ih =>
    have ha := h.closed hP htypes hfixed (hps _ List.mem_cons_self) hm
    obtain ⟨has, hm'⟩ := ih (fun q hq => hps q (List.mem_cons_of_mem _ hq)) (hm.insert ha)
    exact ⟨List.forall_mem_cons.mpr ⟨ha, has⟩, hm'⟩

/-- What the type parameters of a function are bound to has the property. -/
theorem Ty.Closed.instantiateFunction (hP : Ty.Closed P)
    (h : (instantiateFunction types ps m).CanGive (some m'))
    (htypes : ∀ u ∈ types, u.isArgument → P u) (hps : ∀ p ∈ ps, P (.param p)) (hm : m.All P) :
    m'.All P := by
  induction ps generalizing m with
  | nil =>
    rw [ProgramGen.instantiateFunction, Rand.canGive_pure] at h
    cases h
    exact hm
  | cons p ps ih =>
    obtain ⟨a, ha, hrest⟩ := exists_of_instantiateFunction_cons h
    have hclosed := ha.argumentFor.closed hP htypes hm (hps p List.mem_cons_self) hm
    exact ih hrest (fun q hq => hps q (List.mem_cons_of_mem _ hq)) (hm.insert hclosed)

/-! ## Bounds -/

theorem Ty.Closed.boundWithin (hP : Ty.Closed P) {n : Nat} {b : Ty} (hp : P (.param p))
    (h : p.boundWithin n = some b) : P b := by
  induction n generalizing p with
  | zero => simp [TypeParam.boundWithin] at h
  | succ n ih =>
    rw [TypeParam.boundWithin] at h
    split at h
    · cases h
    · exact ih (hP.bound hp ‹_›) h
    · cases h
      exact hP.bound hp ‹_›

/-- The effective bound of a variable with the property has it. -/
theorem Ty.Closed.effectiveBound (hP : Ty.Closed P) {b : Ty} (hp : P (.param p))
    (h : p.effectiveBound = some b) : P b :=
  hP.boundWithin hp h

/-- A variable that occurs in a type with the property has it. -/
theorem Ty.Occurs.closed (hP : Ty.Closed P) (h : t.Occurs p) (ht : P t) : P (.param p) := by
  induction h with
  | here => exact ht
  | bound hq _ ih => exact ih (hP.bound ht hq)
  | wildcard _ ih => exact ih (hP.wildcard ht)
  | arg ha _ ih => exact ih (hP.arg ht ha)

end ProgramGen

import ProgramGen.Proofs.Frame.Expressions

/-!
# How many expressions are moved into variables

An expression is moved into a new variable only where fewer were moved than the configuration allows.
But it is counted only once it has been generated: until then it waits, and the expressions that are
generated for it in the same scope are judged without it. So a scope can get more than are allowed, by
the number of those that wait. They wait below the limit of depth, no more than two at each level of it:
an expression, and the one that is asked for in its place where no variable fits.
-/

namespace ProgramGen

open Session

variable {α : Type} {s s' s₁ s₂ : Session} {e : Engine} {ns : Namespace} {t : Ty} {o : ExprOpts}
variable {l : Limits} {k m n : Nat}

/-- How many expressions were moved into variables of a scope. -/
def Session.hoistedIn (s : Session) (ns : Namespace) : Nat := s.hoisted.getD ns 0

/-- How many are moved into variables of a scope at most, if no more than `waiting` wait at a time. -/
def Limits.maxHoisted (l : Limits) (waiting : Nat) : Nat :=
  if l.maxVarDecls = 0 then 0 else l.maxVarDecls + waiting - 1

/-- How many expressions can wait at a time, `k` less than two for each level that is left. -/
def Session.canWait (s : Session) (k : Nat) : Nat := 2 * (s.config.limits.maxDepth - s.frame.depth) - k

/-- How many of the two that can wait at a level of depth are spared by an expression with these
options. -/
def ExprOpts.spared (o : ExprOpts) : Nat := if o.onlyLeaves then 2 else if o.excludeVar then 1 else 0

theorem Limits.maxHoisted_mono (h : m ≤ n) : l.maxHoisted m ≤ l.maxHoisted n := by
  unfold maxHoisted
  split
  · exact Nat.le_refl 0
  · omega

/-- Without room in any scope nothing is moved. -/
theorem Limits.maxHoisted_eq_zero (h : l.maxVarDecls = 0) : l.maxHoisted n = 0 := if_pos h

namespace Session

/-- **What is moved into variables stays within bounds.** The counts of a session only grow, so that
the bound on the last one holds at any time before. -/
structure Hoists (k : Nat) (s s' : Session) : Prop where
  frame : s'.frame = s.frame
  config : s'.config = s.config
  grows : ∀ ns, s.hoistedIn ns ≤ s'.hoistedIn ns
  bounded : ∀ ns, s'.hoistedIn ns ≤ max (s.hoistedIn ns) (s.config.limits.maxHoisted (s.canWait k))

namespace Hoists

theorem of_eq (hframe : s'.frame = s.frame) (hconfig : s'.config = s.config)
    (hhoisted : s'.hoisted = s.hoisted) : s.Hoists k s' := by
  have heq : ∀ ns, s'.hoistedIn ns = s.hoistedIn ns := fun ns => congrArg (·.getD ns 0) hhoisted
  exact ⟨hframe, hconfig, fun ns => Nat.le_of_eq (heq ns).symm, fun ns => heq ns ▸ Nat.le_max_left _ _⟩

theorem trans (h : s.Hoists k s₁) (h' : s₁.Hoists k s₂) : s.Hoists k s₂ where
  frame := h'.frame.trans h.frame
  config := h'.config.trans h.config
  grows ns := Nat.le_trans (h.grows ns) (h'.grows ns)
  bounded ns := by
    have hsame : s₁.config.limits.maxHoisted (s₁.canWait k) =
        s.config.limits.maxHoisted (s.canWait k) := by
      rw [canWait, canWait, h.config, h.frame]
    have := h.bounded ns
    have := h'.bounded ns
    omega

/-- Where fewer can wait less is moved. -/
theorem mono (h : k ≤ m) : Subrelation (Hoists m) (Hoists k) := fun {s} _ hm =>
  { hm with
    bounded := fun ns => by
      have := hm.bounded ns
      have : s.config.limits.maxHoisted (s.canWait m) ≤ s.config.limits.maxHoisted (s.canWait k) :=
        Limits.maxHoisted_mono (Nat.sub_le_sub_left h _)
      omega }

/-- From a scope inside to the one around it. -/
theorem leave {f : Frame} (h : Hoists k { s with frame := f } s')
    (hwait : canWait { s with frame := f } k ≤ s.canWait m) :
    s.Hoists m { s' with frame := s.frame } where
  frame := rfl
  config := h.config
  grows := h.grows
  bounded ns := Nat.le_trans (h.bounded ns) <|
    Nat.max_le.mpr ⟨Nat.le_max_left _ _, Nat.le_trans (Limits.maxHoisted_mono hwait) (Nat.le_max_right _ _)⟩

instance : Oblivious (Hoists k) where
  refl _ := .of_eq rfl rfl rfl
  trans _ _ _ := .trans
  draw _ _ := .of_eq rfl rfl rfl
  frame s _ f hdepth h := h.leave (by simp only [canWait]; omega)
  unfinished _ _ _ h := ⟨h.frame, h.config, h.grows, h.bounded⟩
  config _ _ h := h.config
  unseen _ _ := .of_eq

/-- A level more of depth is worth two that wait. -/
instance : Encloses (Hoists 0) (Hoists 2) where
  outer _ _ h := mono (Nat.zero_le 2) h
  frame s _ f hdepth h := h.leave (by simp only [canWait]; omega)

end Hoists

/-! ## One more -/

theorem hoistedIn_countHoist :
    s.countHoist.hoistedIn ns = if s.frame.ns = ns then s.hoistedIn ns + 1 else s.hoistedIn ns := by
  show (s.hoisted.insert s.frame.ns (s.hoistedHere + 1)).getD ns 0 = _
  rw [Std.HashMap.getD_insert]
  by_cases h : s.frame.ns = ns
  · rw [if_pos (beq_iff_eq.mpr h), if_pos h, ← h]
    rfl
  · rw [if_neg (mt beq_iff_eq.mp h), if_neg h]
    rfl

/-- **An expression that was judged before it was generated is counted afterwards**, when its scope
may be full. -/
theorem Hoists.countHoist (h : s.Hoists (k + 1) s') (hk : k < 2) (hcan : s.canHoist t o)
    (hdepth : s.frame.depth < s.config.limits.maxDepth) : s.Hoists k s'.countHoist := by
  have hroom : s.hoistedIn s.frame.ns < s.config.limits.maxVarDecls := by
    simp only [canHoist, Bool.and_eq_true, decide_eq_true_eq] at hcan
    exact hcan.2
  have hwait : s.canWait k = s.canWait (k + 1) + 1 := by
    unfold canWait
    omega
  -- There is room, so the limit is not zero.
  have hmax : ∀ n, s.config.limits.maxHoisted n = s.config.limits.maxVarDecls + n - 1 := fun _ =>
    if_neg (by omega)
  refine ⟨h.frame, h.config, fun ns => ?_, fun ns => ?_⟩
  · have := h.grows ns
    rw [hoistedIn_countHoist]
    split <;> omega
  · have hbounded := h.bounded ns
    rw [hmax] at hbounded ⊢
    rw [hoistedIn_countHoist, h.frame]
    split
    · subst ns
      omega
    · omega

end Session

/-! ## Expressions -/

/-- The entries of the engine keep to the bounds; an expression that is no variable spares one. -/
structure Engine.Hoists (e : Engine) : Prop extends e.Keeps False (Session.Hoists 0) (Session.Hoists 2) where
  other : ∀ t o, o.excludeVar = true → (e.expr t o).Always (Session.Keeps False (Session.Hoists 1))

namespace Gen

theorem genExpr_hoists (he : e.Hoists) : (genExpr e t o).Always (Keeps False (Hoists o.spared)) := by
  refine genExpr_keeps fun t b s hdepth => ?_
  by_cases hleaf : (o.onlyLeaves || b) = true
  · -- A leaf is not moved.
    have hkeeps : s.Keeps False (Hoists 2) _ := genByStrategy_keeps he.toKeeps id id
      (t := t) (o := { o with onlyLeaves := o.onlyLeaves || b }) (fun _ => he.leaf _ _ hleaf)
      fun _ hcan _ => by simp [canHoist, hleaf] at hcan
    refine Keeps.imp (Hoists.mono ?_) hkeeps
    unfold ExprOpts.spared
    split
    · exact Nat.le_refl 2
    · split <;> omega
  · obtain ⟨hnotLeaf, hb⟩ : o.onlyLeaves = false ∧ b = false := by simpa using hleaf
    by_cases hexclude : o.excludeVar = true
    · have hspared : o.spared = 1 := by simp [ExprOpts.spared, hnotLeaf, hexclude]
      rw [hspared]
      refine genByStrategy_keeps (P := Hoists 2) he.toKeeps id (Hoists.mono (by omega)) (fun h => ?_)
        fun s' hcan h => h.also.countHoist (by omega) hcan (hdepth hb)
      rw [hexclude] at h
      cases h
    · have hspared : o.spared = 0 := by simp [ExprOpts.spared, hnotLeaf, hexclude]
      rw [hspared]
      exact genByStrategy_keeps (P := Hoists 1) he.toKeeps (Hoists.mono (by omega)) (Hoists.mono (by omega))
        (fun _ => he.other _ _ rfl) fun s' hcan h => h.also.countHoist (by omega) hcan (hdepth hb)

end Gen

/-- The engine keeps to the bounds, however many layers it has. -/
theorem Engine.layers_hoists : ∀ n, (Engine.layers n).Hoists
  | 0 =>
    ⟨⟨fun _ _ => .throw, fun _ _ _ => .throw, fun _ => .throw, fun _ _ => .throw⟩, fun _ _ _ => .throw⟩
  | n + 1 =>
    have he := layers_hoists n
    { expr := fun _ _ => .imp (Keeps.imp (Session.Hoists.mono (Nat.zero_le _))) (Gen.genExpr_hoists he)
      leaf := fun t o hleaf => by
        have h := Gen.genExpr_hoists he (t := t) (o := o)
        rwa [ExprOpts.spared, if_pos hleaf] at h
      body := fun _ => Gen.genBody_keeps he.toKeeps
      new := fun _ _ => Gen.genNew_keeps he.toKeeps
      other := fun t o hexclude => by
        refine .imp (Keeps.imp (Session.Hoists.mono ?_)) (Gen.genExpr_hoists he)
        unfold ExprOpts.spared
        split
        · exact Nat.le_succ 1
        · exact Nat.le_refl 1 }

/-- **Whatever an operation ends in, the variables that expressions were moved into are within
bounds.** -/
theorem Gen.Generates.hoists {x : Gen α} (h : x.Generates (Engine.layers n)) (s : Session) :
    s.Hoists 0 (x.runIn s).2 :=
  (h.keeps (Engine.layers_hoists n).toKeeps (fun _ _ => (Engine.layers_hoists (n + 1)).expr _ _) s).also

/-- **In every scope of a program at most so many expressions are moved into variables**: the limit,
and one less than those that can wait in the body of a function. -/
theorem Gen.hoistedIn_genProgram (source : Source) (config : Config) (l : Language) (ns : Namespace) :
    (genProgram.runIn (.start source config l)).2.hoistedIn ns ≤
      config.limits.maxHoisted (2 * (config.limits.maxDepth - 2)) := by
  have hprogram : Session.Keeps False (Session.Hoists 2) (.start source config l)
      (genProgram.runIn (.start source config l)).2 := by
    suffices h : genProgram.Yields (Keeps False (Session.Hoists 2)) (.start source config l) fun _ _ => True
      from h.1
    unfold genProgram
    refine .get (((genDeclarations_keeps (Engine.layers_hoists _).toKeeps).yields _).bind fun _ _ _ _ => ?_)
    exact .get (.pure trivial)
  have hbounded := hprogram.also.bounded ns
  have hnone : Session.hoistedIn (.start source config l) ns = 0 := Std.HashMap.getD_empty
  have hwait : Session.canWait (.start source config l) 2 = 2 * (config.limits.maxDepth - 2) := by
    show 2 * (config.limits.maxDepth - 1) - 2 = _
    omega
  rw [hnone, hwait, Nat.zero_max] at hbounded
  exact hbounded

end ProgramGen

import ProgramGen.Proofs.Generation.Branch
import ProgramGen.Proofs.Generation.Loop
import ProgramGen.Synthesis.Expression

/-!
# Expressions

Each way to make an expression answers the requests that it is chosen for. An answer may be moved into a
variable that is read in its place. Where a program is deeper than twice the limit, a type without
literals gets a placeholder, and the others get a literal.
-/

namespace ProgramGen

open Session

variable {s s' s₁ : Session} {t u : Ty} {e : Engine} {P : Permit} {a : Expr} {o : ExprOpts} {x : Strategy} {r : Nat}

/-! ## Ways to make an expression -/

/-- How much a request leaves open: more where not only leaves are asked for, and where variables may be
read. What is asked for at the same depth in the course of an answer leaves less open. -/
def ExprOpts.rank (o : ExprOpts) : Nat := (if o.onlyLeaves then 0 else 2) + if o.excludeVar then 0 else 1

namespace ExprOpts

theorem rank_excludeVar_lt (h : o.excludeVar = false) : rank { o with excludeVar := true } < o.rank := by
  simp [rank, h]

theorem rank_leaves_lt (h : o.onlyLeaves = false) : leaves.rank < o.rank := by
  simp only [rank, leaves, h, Bool.false_eq_true, if_true, if_false]
  omega

theorem rank_le_three : o.rank ≤ 3 := by
  unfold rank
  split_ifs <;> omega

/-- To ask for leaves only is to leave less open. -/
theorem rank_mono {b : Bool} : rank { o with onlyLeaves := o.onlyLeaves || b } ≤ o.rank := by
  unfold rank
  cases o.onlyLeaves <;> cases b <;> simp

end ExprOpts

/-- What is known of a type and a request where a way to make an expression is one to choose from. -/
def Strategy.Applies (s : Session) (t : Ty) (o : ExprOpts) : Strategy → Prop
  | .funcCall => True
  | .assignment => t.isVoid
  | .constant => t.isVoid = false ∧ s.hasConstant t
  | .variable => t.isVoid = false ∧ o.excludeVar = false
  | .typeTest => t.isVoid = false ∧ o.onlyLeaves = false
  | .arith => t.isVoid = false ∧ (s.language.arithOperands t).isEmpty = false
  | _ => t.isVoid = false

namespace Session

theorem applies_of_mem_strategies (h : x ∈ s.strategies t o) : x.Applies s t o := by
  unfold strategies at h
  extract_lets hasConstant reads value arith at h
  have hreads : x ∈ reads → x = .variable ∧ o.excludeVar = false := fun h => by
    simp only [reads] at h
    split at h
    · cases h
    · exact ⟨List.mem_singleton.mp h, by simpa using ‹¬o.excludeVar›⟩
  split at h
  · rename_i hvoid
    rcases List.mem_pair.mp h with rfl | rfl
    · trivial
    · exact hvoid
  rename_i hvoid
  rw [Bool.not_eq_true] at hvoid
  split at h
  · split at h
    · obtain rfl := List.mem_singleton.mp h
      exact ⟨hvoid, ‹hasConstant›⟩
    · rcases List.mem_cons.mp h with rfl | h
      · exact hvoid
      · obtain ⟨rfl, hread⟩ := hreads h
        exact ⟨hvoid, hread⟩
  rename_i hleaves
  rw [Bool.not_eq_true] at hleaves
  rw [List.mem_append, List.mem_append, List.mem_append] at h
  rcases h with ((h | h) | h) | h
  · simp only [List.mem_cons, List.not_mem_nil, or_false] at h
    rcases h with rfl | rfl | rfl | rfl
    · exact hvoid
    · exact hvoid
    · exact ⟨hvoid, hleaves⟩
    · trivial
  · obtain ⟨rfl, hread⟩ := hreads h
    exact ⟨hvoid, hread⟩
  · simp only [value] at h
    split at h
    · rw [List.mem_singleton.mp h]
      exact hvoid
    · rename_i hconstant
      have hconstant : s.hasConstant t := by simpa using hconstant
      split at h
      · simp only [List.mem_cons, List.not_mem_nil, or_false] at h
        rcases h with rfl | rfl | rfl | rfl
        · exact ⟨hvoid, hconstant⟩
        · exact hvoid
        · exact hvoid
        · exact hvoid
      · rw [List.mem_singleton.mp h]
        exact ⟨hvoid, hconstant⟩
  · simp only [arith] at h
    split at h
    · cases h
    · rw [List.mem_singleton.mp h]
      exact ⟨hvoid, by simpa using ‹¬(s.language.arithOperands t).isEmpty›⟩

/-- There is always a way to make an expression. -/
theorem strategies_ne_nil : s.strategies t o ≠ [] := by
  unfold strategies
  extract_lets hasConstant reads value arith
  split
  · nofun
  · split
    · split <;> nofun
    · nofun

theorem hasConstant_of_language (h : s'.language = s.language) : s'.hasConstant t = s.hasConstant t := by
  unfold hasConstant
  rw [h]

theorem isVoid_of_hasConstant (h : s.hasConstant t) : t.isVoid = false := by
  unfold hasConstant at h
  split at h
  · rename_i k _ _ _
    cases k <;> first | rfl | cases h
  · rfl
  · cases h

theorem strategies_of_language (h : s'.language = s.language) : s'.strategies t o = s.strategies t o := by
  unfold strategies
  rw [hasConstant_of_language h, h]

/-- What the engine is asked for at the depth of the session itself: values of classes that have
instances, and requests that leave less open. -/
structure ServedHere (s : Session) (e : Engine) (P : Permit) (r : Nat) : Prop where
  expr : ∀ s₁ t o, s.Step P s₁ → t.Plain → o.rank < r →
    (e.expr t o).Ensures (Step P) s₁ fun a s' => s'.Answers s.frame.depth t a
  new : ∀ s₁ t, s.Step P s₁ → s₁.Concrete t →
    (e.new t false).Ensures (Step P) s₁ fun a s' => s'.Answers s.frame.depth t a

theorem ServedHere.step (h : s.ServedHere e P r) (hstep : s.Step P s') : s'.ServedHere e P r where
  expr s₁ t o h₁ ht ho := by
    rw [hstep.frame]
    exact h.expr s₁ t o (hstep.trans h₁) ht ho
  new s₁ t h₁ ht := by
    rw [hstep.frame]
    exact h.new s₁ t (hstep.trans h₁) ht

theorem ServedHere.mono {r' : Nat} (h : s.ServedHere e P r) (hr : r' ≤ r) : s.ServedHere e P r' :=
  ⟨fun s₁ t o h₁ ht ho => h.expr s₁ t o h₁ ht (ho.trans_le hr), h.new⟩

end Session

namespace Gen

/-- **An expression made in one way** answers the requests that the way is chosen for. -/
theorem genStrategy_ensures (hs : s.Sound) (he : s.Served e 1) (hhere : s.ServedHere e P o.rank)
    (hdepth : s.frame.depth ≤ 2 * s.maxDepth) (hP : P.Covers s.frame.ns) (ht : t.Requested) (hx : x.Applies s t o) :
    (genStrategy e x t o).Ensures (Step P) s fun a s' => s'.Answers s.frame.depth t a := by
  cases x with
  | funcCall => exact genFuncCall_ensures hs he hdepth hP ht
  | assignment => exact genAssignment_ensures hs he hdepth hP hx
  | constant => exact genConstant_ensures hs (ht.plain hx.1) hx.2 (fun _ => he.ground) hP
  | «variable» =>
    refine genVariable_ensures hs hx.1 fun s₁ h₁ => hhere.expr s₁ t _ h₁ (ht.plain hx.1) (ExprOpts.rank_excludeVar_lt hx.2)
  | typeTest =>
    refine genTypeTest_ensures hs (ht.plain hx.1) he hdepth fun s₁ h₁ =>
      hhere.expr s₁ t _ h₁ (ht.plain hx.1) (ExprOpts.rank_leaves_lt hx.2)
  | arith => exact genArith_ensures hs (ht.plain hx.1) he hdepth hP hx.2
  | new => exact genNew_ensures hs (ht.plain hx) he hdepth hP fun s₁ u h₁ _ hu => hhere.new s₁ u h₁ hu
  | fieldAccess => exact genFieldAccess_ensures hs (ht.plain hx) he hdepth hP
  | conditional => exact genConditional_ensures hs (ht.plain hx) he hdepth hP
  | logical => exact genLogical_ensures hs (ht.plain hx) he hdepth hP
  | equality => exact genEquality_ensures hs (ht.plain hx) he hdepth hP
  | comparison => exact genComparison_ensures hs (ht.plain hx) he hdepth hP

/-- **An answer that is moved into a variable** is read in its place. -/
theorem hoist_ensures (hs : s.Sound) (hP : P.Covers s.frame.ns) (hplace : s.HasPlace) (ht : t.Plain)
    (ha : s.Answers s.frame.depth t a) {hoisted : Session → Std.HashMap Namespace Nat} :
    (do modify fun s => { s with hoisted := hoisted s }
        let v ← genVariableDecl e (some t) false (some a)
        return .var v.name v.ty : Gen Expr).Ensures (Step P) s fun a s' => s'.Answers s.frame.depth t a := by
  refine (counts_step hs (passes_of_counts hs le_rfl le_rfl le_rfl) rfl).bind fun _ s₁ h₁ _ => ?_
  have hvalue : ∀ b ∈ some a, s₁.StandsInit b := fun b hb => by
    cases hb
    exact StandsInit.step ((ha.value ht.isVoid).deeper exprDepth_le_initDepth.2) h₁
  have hplace₁ := hplace.mono h₁.toLeads h₁.frame
  refine (genVariableDecl_step h₁.sound (fun u hu => Option.some.inj hu ▸ ht) hvalue nofun (.inr hplace₁)
    (h₁.frame ▸ hP)).bind fun v s₂ h₂ ⟨hty, hv⟩ => .pure (.refl h₂.sound) ?_
  rw [← h₂.frame] at hv
  have hread := h₂.sound.canRead_here (d := .var v) (hplace₁.mono h₂.toLeads h₂.frame).body
  have hstands := Stands.var h₂.sound (Namespace.self_mem_lineage h₂.sound.rooted) hv rfl hread hty
  exact .of_value (hstands.deeper exprDepth_pos) rfl hty ht.isVoid

/-- **An expression made in a random way.** -/
theorem genByStrategy_ensures (hs : s.Sound) (hP : P.Covers s.frame.ns) (ht : t.Requested)
    (hx : ∀ x s₁, s.Step P s₁ → x ∈ s.strategies t o →
      (genStrategy e x t o).Ensures (Step P) s₁ fun a s' => s'.Answers s.frame.depth t a) :
    (genByStrategy e t o).Ensures (Step P) s fun a s' => s'.Answers s.frame.depth t a := by
  unfold genByStrategy
  refine .get ((Ensures.pick.drawStep hs).bind fun chosen s₁ h₁ ⟨_, hnone, hchosen⟩ => ?_)
  extract_lets x
  have hmem : x ∈ s.strategies t o := by
    cases chosen with
    | none => exact absurd (hnone rfl) strategies_ne_nil
    | some y => exact hchosen y rfl
  refine (Ensures.onlyIf (R := OnlyDraws) (refl_of OnlyDraws _) fun _ => .chance).drawStep h₁.sound |>.bind
    fun wanted s₂ h₂ ⟨_, hwanted⟩ => ?_
  have h₁₂ := h₁.trans h₂
  split
  · rename_i hhoist
    have hhoist := hwanted hhoist
    have hplain : t.Plain := ht.plain (by
      simp only [canHoist, Bool.and_eq_true, Bool.not_eq_true'] at hhoist
      exact hhoist.1.1.1.1.2)
    refine (hx x s₂ h₁₂ hmem).bind fun a s₃ h₃ ha => ?_
    have h₁₃ := h₁₂.trans h₃
    rw [← h₁₃.frame] at ha ⊢
    exact hoist_ensures h₃.sound (h₁₃.frame ▸ hP) ((hasPlace_of_canHoist hhoist).mono h₁₃.toLeads h₁₃.frame) hplain ha
  · exact hx x s₂ h₁₂ hmem

/-- **An expression answers every request**: with a placeholder, a variable that is there, or an expression
made in some way for the type or for a narrower one. -/
theorem genExpr_ensures (hs : s.Sound) (hP : P.Covers s.frame.ns) (ht : t.Requested)
    (hx : ∀ u x s₁, s.Step P s₁ → u.Requested → u.isVoid = t.isVoid →
      (2 * s.maxDepth < s.frame.depth → s.hasConstant u ∧ (t.isApplied = false → u.isApplied = false)) →
      x ∈ s₁.strategies u { o with onlyLeaves := o.onlyLeaves || decide (s.frame.depth ≥ s.maxDepth) } →
      (genStrategy e x u { o with onlyLeaves := o.onlyLeaves || decide (s.frame.depth ≥ s.maxDepth) }).Ensures (Step P) s₁
        fun a s' => s'.Answers s.frame.depth u a) :
    (genExpr e t o).Ensures (Step P) s fun a s' => s'.Answers s.frame.depth t a := by
  have hunresolved : (pure (Expr.unresolved t) : Gen Expr).Ensures (Step P) s
      fun a s' => s'.Answers s.frame.depth t a := .pure (.refl hs) (.unresolved ht)
  unfold genExpr
  refine .get ?_
  extract_lets limit atLimit canSkip o' rest
  split
  · exact hunresolved
  split
  · exact hunresolved
  rename_i hdeep
  split
  · exact hunresolved
  simp only [Bool.and_eq_true, decide_eq_true_eq, Bool.not_eq_true', not_and, Bool.not_eq_false] at hdeep
  have hrest : ∀ (u : Ty) (s₁ : Session), s.Step P s₁ → u.Requested → u.isVoid = t.isVoid →
      (s.hasConstant t → s.hasConstant u ∧ (t.isApplied = false → u.isApplied = false)) →
      (rest u).Ensures (Step P) s₁ fun a s' => s'.Answers s.frame.depth t a := by
    intro u s₁ h₁ hu hvoid hconstant
    have hroom : exprDepth s.maxDepth s.frame.depth u ≤ exprDepth s.maxDepth s.frame.depth t :=
      exprDepth_le_of_applied fun hbeyond => (hconstant (hdeep hbeyond)).2
    have hanswer : ∀ (s₂ : Session), s₁.Step P s₂ →
        (genByStrategy e u o').Ensures (Step P) s₂ fun a s' => s'.Answers s.frame.depth t a := by
      intro s₂ h₂
      have h₁₂ := h₁.trans h₂
      have hway : (genByStrategy e u o').Ensures (Step P) s₂ fun a s' => s'.Answers s₂.frame.depth u a :=
        genByStrategy_ensures h₂.sound (h₁₂.frame ▸ hP) hu fun x s₃ h₃ hmem => by
          rw [h₁₂.frame]
          refine hx u x s₃ (h₁₂.trans h₃) hu hvoid (fun hbeyond => hconstant (hdeep hbeyond)) ?_
          rwa [strategies_of_language h₃.language]
      refine hway.mono fun a s₃ h₃ ha => ?_
      rw [h₁₂.frame] at ha
      refine ha.of_request hvoid ?_
      rw [(h₁₂.trans h₃).maxDepth_eq]
      exact hroom
    refine ((Ensures.onlyIf (R := OnlyDraws) (refl_of OnlyDraws _) fun _ => .chance).drawStep h₁.sound).bind
      fun existing s₂ h₂ _ => ?_
    split
    · refine .get ((Ensures.pick.drawStep h₂.sound).bind fun chosen s₃ h₃ ⟨_, _, hchosen⟩ => ?_)
      cases chosen with
      | some v =>
        have hread := answers_exactReads (k := s.frame.depth) h₂.sound (hchosen v rfl)
        refine .pure (.refl h₃.sound) ((hread.of_request hvoid ?_).mono h₃)
        rw [(h₁.trans h₂).maxDepth_eq]
        exact hroom
      | none => exact hanswer s₃ (h₂.trans h₃)
    · exact .pass (hanswer s₂ h₂)
  refine ((concretize_ensures ht).drawStep hs).bind fun u s₁ h₁ ⟨_, hu⟩ => ?_
  obtain rfl := hu.symm
  refine ((Ensures.onlyIf (R := OnlyDraws) (refl_of OnlyDraws _) fun _ => .chance).drawStep h₁.sound).bind
    fun narrowing s₂ h₂ ⟨_, hnarrowing⟩ => ?_
  have h₁₂ := h₁.trans h₂
  split
  · rename_i hwanted
    have hwanted := hnarrowing hwanted
    simp only [Bool.and_eq_true, Bool.not_eq_true'] at hwanted
    refine ((narrow_ensures h₂.sound (ht.plain hwanted.2)).drawStep h₂.sound).bind fun u s₃ h₃ ⟨_, hu⟩ =>
      hrest u s₃ (h₁₂.trans h₃) (.inl hu.plain) (hu.plain.isVoid.trans hwanted.2.symm) ?_
    rw [← hasConstant_of_language h₁₂.language, ← hasConstant_of_language h₁₂.language]
    exact hu.constant
  · exact .pass (hrest t s₂ h₁₂ ht rfl fun h => ⟨h, id⟩)

/-- **Where there is room for operands** every way to make an expression can be taken. -/
theorem genExpr_within_ensures (hs : s.Sound) (he : s.Served e 1) (hhere : s.ServedHere e P o.rank)
    (hdepth : s.frame.depth ≤ 2 * s.maxDepth) (hP : P.Covers s.frame.ns) (ht : t.Requested) :
    (genExpr e t o).Ensures (Step P) s fun a s' => s'.Answers s.frame.depth t a :=
  genExpr_ensures hs hP ht fun u x s₁ h₁ hu _ _ hx => by
    have hway := genStrategy_ensures h₁.sound (he.step h₁) ((hhere.step h₁).mono ExprOpts.rank_mono)
      (h₁.depth_le hdepth) (h₁.frame ▸ hP) hu (applies_of_mem_strategies hx)
    rwa [h₁.frame] at hway

/-- **Beyond twice the limit** only literals are made. -/
theorem genExpr_beyond_ensures (hs : s.Sound) (he : t.isApplied → s.ServedGround e 1)
    (hdepth : 2 * s.maxDepth < s.frame.depth) (hP : P.Covers s.frame.ns) (ht : t.Requested) :
    (genExpr e t o).Ensures (Step P) s fun a s' => s'.Answers s.frame.depth t a :=
  genExpr_ensures hs hP ht fun u x s₁ h₁ hu _ hconstant hx => by
    obtain ⟨hconstant, happlied⟩ := hconstant hdepth
    rw [← hasConstant_of_language h₁.language] at hconstant
    have hplain : u.Plain := hu.plain (isVoid_of_hasConstant hconstant)
    have hlimit : s.frame.depth ≥ s.maxDepth := by omega
    simp only [strategies, isVoid_of_hasConstant hconstant, hconstant, hlimit, decide_true, Bool.or_true, if_true,
      Bool.false_eq_true, if_false, List.mem_singleton] at hx
    subst hx
    rw [← h₁.frame]
    refine genConstant_ensures h₁.sound hplain hconstant (fun h => ServedGround.step (he ?_) h₁) (h₁.frame ▸ hP)
    by_contra hnot
    rw [happlied (by simpa using hnot)] at h
    cases h

end Gen

end ProgramGen

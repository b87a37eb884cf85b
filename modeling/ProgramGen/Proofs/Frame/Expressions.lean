import ProgramGen.Proofs.Frame.Declarations
import ProgramGen.Synthesis.Program

/-!
# Every operation restores what is scoped

Expressions, loops and bodies, for every engine whose entries restore what is scoped, and from that
for the engine itself by induction on its layers. So whatever operation of the generator runs, from
whatever session and with whatever result, the frame and the list of unfinished classes are what
they were, and no narrowing of a variable is left in the symbol table.

Of the two relations that declarations keep to besides, bodies keep to `R`, and so do expressions; but
the parts of an expression are deeper than it, apart from the one that stands in for a variable.
-/

namespace ProgramGen

open Session

variable {G : Prop} {R Q P S : Session → Session → Prop} [Oblivious R] [Oblivious Q] [Oblivious P] [Oblivious S]
variable [Encloses R Q] {α : Type} {s : Session} {e : Engine} {ns : Namespace} {t u : Ty} {o : ExprOpts}
variable {m : Subst} {c : ClassDecl}
variable {string : Option String} {last : Option Expr} {b : Bool} {l : Language} {k : BuiltinKind}

/-- A variable is read only where none is excluded. -/
theorem Session.excludeVar_of_reads {s : Session} (h : .variable ∈ s.strategies t o) :
    o.excludeVar = false := by
  unfold strategies at h
  cases hexclude : o.excludeVar with
  | false => rfl
  | true =>
    rw [hexclude] at h
    grind

/-- One expression more was moved into a variable of the current scope. -/
def Session.countHoist (s : Session) : Session :=
  { s with hoisted := s.hoisted.insert s.frame.ns (s.hoistedHere + 1) }

-- As with declarations, all parts are taken to keep to the same two relations.
set_option linter.unusedSectionVars false

namespace Gen

/-! ## Literals and operators -/

theorem integerText_keeps {f : IntFormat} {lo hi : Int} : (integerText f lo hi).Always (Keeps G R) :=
  .bind .rand fun _ => .pure

theorem letter_keeps : letter.Always (Keeps G R) := .bind .rand fun _ => .pure

theorem decimalText_keeps : decimalText.Always (Keeps G R) :=
  .bind integerText_keeps fun _ => .bind integerText_keeps fun _ => .pure

theorem literalText_keeps : (literalText l k).Always (Keeps G R) := by
  cases k with
  | float => exact .bind decimalText_keeps fun _ => .pure
  | double => exact .bind decimalText_keeps fun _ => .pure
  | char => exact .bind letter_keeps fun _ => .pure
  | string => exact .bind .rand fun _ => .bind (.times letter_keeps) fun _ => .pure
  | boolean => exact .bind .coin fun _ => .pure
  | any => exact .pure
  | nothing => exact .pure
  | void => exact .pure
  | _ => exact .bind integerText_keeps fun _ => .pure

section Parts

variable (he : e.Keeps G R Q)
include he

theorem genArray_keeps : (genArray e t).Always (Keeps G Q) := by
  unfold genArray
  refine .get fun s => ?_
  extract_lets l rest
  have hrest : ∀ elem, (rest elem).Always (Keeps G Q) := fun _ =>
    .bind .rand fun _ => .bind (.nested (.times (he.expr _ _))) fun _ => .pure
  split
  · exact .bind concretize_keeps hrest
  · exact .pass (hrest _)

theorem genConstant_keeps : (genConstant e t).Always (Keeps G Q) := by
  unfold genConstant
  split
  · exact genArray_keeps he
  · refine .get fun s => .bind literalText_keeps fun r => ?_
    split
    · exact .pure
    · exact he.new _ _
  · exact he.new _ _

theorem genOperands_keeps : (genOperands e t u o).Always (Keeps G Q) :=
  .nested (.bind (he.expr _ _) fun _ => .bind (he.expr _ _) fun _ => .pure)

theorem genLogical_keeps : (genLogical e t).Always (Keeps G Q) :=
  .bind .coin fun _ => .bind (genOperands_keeps he) fun _ => .pure

theorem genEquality_keeps : (genEquality e t).Always (Keeps G Q) :=
  .bind selectType_keeps fun _ => .bind .coin fun _ => .bind (genOperands_keeps he) fun _ => .pure

theorem genComparison_keeps : (genComparison e t).Always (Keeps G Q) := by
  have hrest : ∀ lhs rhs, Always (Keeps G Q) (do
      let op := (← pick CmpOp.all).getD .lt
      let x ← genOperands e lhs rhs {}
      return Expr.comparison op x.1 x.2 t : Gen Expr) := fun _ _ =>
    .bind .pick fun _ => .bind (genOperands_keeps he) fun _ => .pure
  unfold genComparison
  refine .get fun s => .bind .pick fun r => ?_
  split
  · exact genConstant_keeps he
  · split
    · exact .bind .pick fun _ => .pass (hrest _ _)
    · exact .pass (hrest _ _)

theorem genArith_keeps : (genArith e t).Always (Keeps G Q) := by
  unfold genArith
  refine .get fun s => .bind .pick fun r => ?_
  split
  · exact genConstant_keeps he
  · exact .bind .pick fun _ => .bind (genOperands_keeps he) fun _ => .pure

/-! ## New values -/

/-- **A closure is generated in a scope of its own.** -/
theorem genLambda_keeps {params : List Ty} {sam : Option Ty} :
    (genLambda e params t sam).Always (Keeps G Q) := by
  unfold genLambda
  refine .bind (counts_keeps fun s => ⟨_, _, _, rfl⟩) fun _ => getScope he fun s he hs =>
    .bind (.deeper (R := R) (fun f => f.depth.lt_succ_self) (fun hG _ _ => Namespace.child_isWithin (hs hG)) ?_) fun _ =>
      .bind (addDecl_keeps nofun) fun _ => .pure
  exact .bind (.mapM fun _ _ => .bind word_keeps fun _ => .bind addParam_keeps fun _ => .pure)
    fun _ => .bind (he.body _) fun _ => .pure

theorem genFuncValue_keeps : (genFuncValue e t).Always (Keeps G Q) := by
  unfold genFuncValue
  split
  · exact .pure
  · refine .get fun s => ?_
    extract_lets rest
    have hrest : ∀ r, (rest r).Always (Keeps G Q) := by
      rintro (_ | r)
      · exact genLambda_keeps he
      · exact .pure
    refine .bind (.onlyIf .chance) fun _ => ?_
    split
    · exact .bind .pick hrest
    · exact .pass (hrest none)

theorem genInstance_keeps : (genInstance e t c m).Always (Keeps G Q) := by
  unfold genInstance
  exact .get fun s => .bind (.nested (.mapM fun _ _ => .get fun _ => he.expr _ _)) fun _ => .pure

theorem genImplementation_keeps : (genImplementation e t).Always (Keeps G Q) := by
  have hoverride : ∀ name (x : FuncDecl × Subst),
      Always (Keeps G R) (do let _ ← overrideFunc e (Namespace.global.child name) x.2 true x.1) := fun _ _ =>
    .bind (.outer (overrideFunc_keeps he fun _ => Namespace.isWithin_child _ _)) fun _ => .pure
  unfold genImplementation
  split
  · exact .pure
  · refine .get fun s => ?_
    split
    · exact .pure
    · refine .bind className_keeps fun name => ?_
      extract_lets ns plain declare
      have hdeclare : ∀ args, (declare args).Always (Keeps G R) := fun args =>
        .bind (addDecl_keeps fun _ h => by cases h) fun _ =>
          .whileUnfinished (.get fun _ => .forM fun x _ => hoverride _ x)
      refine .bind (.deeper (R := R) (fun f => f.depth.lt_succ_self) (fun _ _ _ => Namespace.isWithin_child _ _) ?_)
        fun _ => .get fun _ => .pure
      split
      · exact .pass (hdeclare _)
      · exact .bind (.map (genSuperArgs_keeps he)) hdeclare

theorem genSamLambda_keeps : (genSamLambda e t).Always (Keeps G Q) := by
  unfold genSamLambda
  refine .get fun s => ?_
  split
  · exact .map (genLambda_keeps he)
  · exact .pure

omit he in
theorem concreteSubtype_keeps : (concreteSubtype t).Always (Keeps G R) := by
  unfold concreteSubtype
  refine .get fun s => .bind .pick fun r => ?_
  split
  · exact .bind instantiate_keeps fun _ => .pass .pure
  · exact .pass .pure

theorem genNewClass_keeps : (genNewClass e t b).Always (Keeps G Q) := by
  unfold genNewClass
  refine .get fun s => ?_
  split
  · exact .pure
  · extract_lets rest
    have hrest : ∀ r, (rest r).Always (Keeps G Q) := by
      rintro (_ | r)
      · refine .get fun s => ?_
        split
        · exact .pure
        · split
          · exact genInstance_keeps he
          · refine .bind concreteSubtype_keeps fun r => ?_
            split
            · exact he.new _ _
            · exact genImplementation_keeps he
      · exact .pure
    refine .bind (.onlyIf .chance) fun _ => ?_
    split
    · exact .bind (genSamLambda_keeps he) hrest
    · exact .pass (hrest none)

theorem genNew_keeps : (genNew e t b).Always (Keeps G Q) := by
  unfold genNew
  refine .get fun s => ?_
  split
  · exact .pure
  · exact .pure
  · refine .bind concretize_keeps fun _ => ?_
    split
    · exact .pure
    · exact he.new _ _
  · split
    · exact .pure
    · exact .pure
    · exact .pure
    · exact genConstant_keeps he
  · split
    · split
      · exact genFuncValue_keeps he
      · extract_lets
        split
        · exact genArray_keeps he
        · exact .pure
    · exact genNewClass_keeps he
  · exact genNewClass_keeps he

/-! ## Calls -/

theorem genArg_keeps : (genArg e t).Always (Keeps G R) := he.expr _ _

theorem genRefCall_keeps : (genRefCall e t).Always (Keeps G Q) := by
  unfold genRefCall
  refine .get fun s => .bind .pick fun r => ?_
  split
  · exact .pure
  · exact .bind (.nested (.mapM fun _ _ => genArg_keeps he)) fun _ => .pure

theorem buildCall_keeps {c : Callee} : (buildCall e c).Always (Keeps G Q) := by
  unfold buildCall
  exact .get fun s => .bind (.nested (.mapM fun _ _ => genArg_keeps he)) fun _ => .pure

omit he in
theorem bindCallee_keeps {f : FuncDecl} : (bindCallee f m t).Always (Keeps G R) := by
  unfold bindCallee
  extract_lets ret
  split
  · exact .pure
  · refine .bind candidateTypes_keeps fun _ => .bind .rand fun r => ?_
    split <;> exact .pure

omit he in
theorem bindCallees_keeps {fs : List (FuncDecl × Option Expr × Subst)} :
    (bindCallees t fs).Always (Keeps G R) := by
  induction fs with
  | nil => exact .pure
  | cons x fs ih =>
    unfold bindCallees
    exact .bind bindCallee_keeps fun _ => .bind ih fun _ => .pure

omit he in
theorem callees_keeps : (callees t).Always (Keeps G R) :=
  .get fun _ => .bind bindCallees_keeps fun _ => .get fun _ => .bind bindCallees_keeps fun _ => .pure

theorem callNewFunc_keeps (hns : G → ns.isWithin .global) : (callNewFunc e ns t).Always (Keeps G Q) :=
  .bind (genFuncDecl_keeps he fun hG _ hspec => by cases hspec; exact hns hG) fun _ => buildCall_keeps he

theorem callNewMethod_keeps : (callNewMethod e t).Always (Keeps G Q) := by
  unfold callNewMethod
  refine .bind (genMatchingClass_keeps he) fun x => .get fun s => ?_
  split
  · exact .pure
  · split
    · exact .pure
    · exact .bind (.nested (he.expr _ _)) fun _ => buildCall_keeps he

theorem genFuncCall_keeps : (genFuncCall e t).Always (Keeps G Q) := by
  unfold genFuncCall
  extract_lets rest
  have hrest : ∀ r, (rest r).Always (Keeps G Q) := by
    rintro (_ | r)
    · refine .bind callees_keeps fun _ => .bind .pick fun r => ?_
      split
      · exact buildCall_keeps he
      · split
        · refine .bind .coin fun _ => ?_
          split
          · exact callNewFunc_keeps he fun _ => Namespace.isWithin_refl _
          · exact callNewMethod_keeps he
        · refine .get fun s => ?_
          split
          · exact getScope he fun _ he hs => callNewFunc_keeps he hs
          · exact callNewMethod_keeps he
    · exact .pure
  refine .bind (.onlyIf .chance) fun _ => ?_
  split
  · exact .bind (genRefCall_keeps he) hrest
  · exact .pass (hrest none)

/-! ## Fields and assignment -/

omit he in
theorem classField_keeps {f : FieldDecl} : (classField t c f).Always (Keeps G R) := by
  unfold classField
  split
  · split
    · exact .pass .pure
    · refine .bind instantiate_keeps fun r => ?_
      split <;> exact .pass .pure
  · exact .pass .pure

omit he in
theorem classFields_keeps {fs : List (ClassDecl × FieldDecl)} : (classFields t fs).Always (Keeps G R) := by
  induction fs with
  | nil => exact .pure
  | cons x fs ih =>
    unfold classFields
    exact .bind classField_keeps fun _ => .bind ih fun _ => .pure

theorem newField_keeps : (newField e t).Always (Keeps G Q) := by
  unfold newField
  refine .bind (genMatchingClass_keeps he) fun x => .get fun s => ?_
  generalize (s.class? x.1.name).bind _ = field
  cases field with
  | none => exact .throw
  | some f => exact .pure

omit he in
theorem finishedFields_keeps : finishedFields.Always (Keeps G R) := .get fun _ => .pure

theorem genFieldAccess_keeps : (genFieldAccess e t).Always (Keeps G Q) := by
  unfold genFieldAccess
  refine .get fun s => ?_
  extract_lets direct rest
  have hrest : ∀ target, (rest target).Always (Keeps G Q) := by
    intro target
    unfold rest
    split
    · exact .pass .pure
    · exact .bind (.nested (he.expr _ _)) fun _ => .pure
  refine .bind .pick fun r => ?_
  split
  · exact .pass (hrest _)
  · refine .bind finishedFields_keeps fun _ => .bind classFields_keeps fun _ => .bind .pick fun r => ?_
    split
    · exact .pass (hrest _)
    · exact .bind (newField_keeps he) hrest

theorem newAssignmentTarget_keeps : (newAssignmentTarget e).Always (Keeps G Q) := by
  unfold newAssignmentTarget
  refine .get fun s => ?_
  extract_lets l rest
  have hrest : ∀ fields, (rest fields).Always (Keeps G Q) := by
    intro fields
    refine .bind .pick fun r => ?_
    split
    · refine .bind instantiateClass_keeps fun r => ?_
      split
      · exact .pure
      · exact .bind (.nested (he.expr _ _)) fun _ => .pure
    · refine .bind selectType_keeps fun _ => .get fun s => ?_
      split
      · exact .pure
      · exact .bind (genVariableDecl_keeps he) fun _ => .bind makeMutable_keeps fun _ => .pure
  refine .bind .coin fun _ => ?_
  split
  · exact .bind finishedFields_keeps fun _ => .pass (hrest _)
  · exact .pass (hrest _)

theorem genAssignment_keeps : (genAssignment e).Always (Keeps G Q) := by
  unfold genAssignment
  refine .get fun s => ?_
  extract_lets void vars rest
  have hrest : ∀ target, (rest target).Always (Keeps G Q) := by
    rintro (_ | target)
    · exact genFuncCall_keeps he
    · exact .bind (.nested (he.expr _ _)) fun _ => .pure
  refine .bind .pick fun r => ?_
  split
  · exact .pass (hrest (some _))
  · exact .bind (newAssignmentTarget_keeps he) hrest

/-! ## Loops -/

theorem stringAccumulator_keeps : (stringAccumulator e).Always (Keeps G Q) := by
  unfold stringAccumulator
  refine .get fun s => .bind .pick fun r => ?_
  split
  · exact .pure
  · exact .bind (genVariableDecl_keeps he) fun _ => .bind makeMutable_keeps fun _ => .pure

theorem genAppend_keeps {var : String} : (genAppend e var).Always (Keeps G Q) :=
  .get fun _ => .bind (.nested (he.expr _ _)) fun _ => .pure

theorem genLoopStmts_keeps : (genLoopStmts e).Always (Keeps G R) := by
  unfold genLoopStmts
  refine .get fun s => ?_
  split
  · exact .bind .pick fun _ => .pure
  · refine .bind (he.body _) fun r => ?_
    split <;> exact .pure

/-- **The body of a loop is generated in a scope of its own.** -/
theorem genLoopBody_keeps (hns : G → ns.isWithin .global) : (genLoopBody e ns string last).Always (Keeps G Q) := by
  unfold genLoopBody
  refine .deeper (fun f => f.depth.lt_succ_self) (fun hG _ _ => hns hG) (.bind (genLoopStmts_keeps he) fun _ => ?_)
  split
  · exact .bind (.outer (genAppend_keeps he)) fun _ => .pass .pure
  · exact .pass .pure

theorem genCollectionLoop_keeps (hns : G → ns.isWithin .global) : (genCollectionLoop e ns t u string).Always (Keeps G Q) := by
  unfold genCollectionLoop
  refine .bind (.nested (he.expr _ _)) fun iterable => .of_yields fun s => ?_
  refine (word_yields (refl_of (Keeps G Q) s)).seq fun var s₁ h₁ hvar => ?_
  refine ((Yields.of_onlyDraws (R := Keeps G Q) .chance).weaken fun _ => trans_of (Keeps G Q) h₁).seq
    fun shape s₂ h₂ hdraws => ?_
  split
  · refine Always.since ?_ h₂
    exact .bind addParam_keeps fun _ => .bind (genLoopBody_keeps he hns) fun _ => .pure
  · -- The variable's name was drawn before the iterator's, and is still free.
    obtain ⟨stream, rfl⟩ := hdraws.1
    refine .get ((word_yields h₂).weaken (fun _ => trans_of (Keeps G Q) h₂) |>.seq fun iterator s₃ h₃ hiterator => ?_)
    obtain ⟨hvar₃, hne⟩ := hiterator.2 var (hvar.1.atStream stream)
    refine (addVar_yields (P := fun _ s' => s.Drew var s') h₃ hiterator.1 (hvar₃.push hne)).seq fun _ s₄ h₄ hvar₄ => ?_
    refine (addVar_yields (P := fun _ _ => True) h₄ hvar₄ trivial).seq fun _ s₅ h₅ _ => Always.since ?_ h₅
    exact .bind (genLoopBody_keeps he hns) fun _ => .bind .chance fun _ => .pure

theorem genCountingLoop_keeps (hns : G → ns.isWithin .global) : (genCountingLoop e ns string).Always (Keeps G Q) := by
  unfold genCountingLoop
  refine .get fun s => .bind .chance fun _ => ?_
  split
  · exact .bind integerText_keeps fun _ => .bind word_keeps fun _ =>
      .bind (genLoopBody_keeps he hns) fun _ => .pure
  · refine .of_yields fun s => (word_yields (refl_of (Keeps G Q) s)).seq fun counter s₁ h₁ hcounter =>
      (addVar_yields (P := fun _ _ => True) h₁ hcounter.1 trivial).seq fun _ s₂ h₂ _ => Always.since ?_ h₂
    exact .bind integerText_keeps fun _ => .bind .coin fun _ => .bind (genLoopBody_keeps he hns) fun _ =>
      .bind .coin fun _ => .pure

theorem genLoop_keeps : (genLoop e).Always (Keeps G Q) := by
  unfold genLoop
  refine .bind (counts_keeps fun s => ⟨_, _, _, rfl⟩) fun _ => getScope he fun {G} s he hs => .bind .pick fun r => ?_
  extract_lets iterableType rest
  have hrest : ∀ string, (rest string).Always (Keeps G Q) := by
    intro string
    unfold rest
    extract_lets
    split
    · exact .bind (genCollectionLoop_keeps he fun hG => Namespace.child_isWithin (hs hG)) fun _ => .pure
    · exact .bind (genCountingLoop_keeps he fun hG => Namespace.child_isWithin (hs hG)) fun _ => .pure
  refine .bind .chance fun _ => ?_
  split
  · exact .bind (.map (stringAccumulator_keeps he)) hrest
  · exact .pass (hrest _)

/-! ## Conditionals -/

theorem genConditional_keeps : (genConditional e t).Always (Keeps G Q) :=
  .get fun _ => .nested (.bind (he.expr _ _) fun _ => .bind narrow_keeps fun _ => .bind (he.expr _ _)
    fun _ => .bind narrow_keeps fun _ => .bind (he.expr _ _) fun _ => .pure)

theorem genBranch_keeps {shadowed : Option String} : (genBranch e t shadowed).Always (Keeps G R) := by
  unfold genBranch
  refine .bind (he.expr _ _) fun _ => .get fun s => ?_
  extract_lets decls
  split <;> exact .pure

/-- **The narrowing of a test ends with its branch.** -/
theorem genTypeTest_keeps : (genTypeTest e t).Always (Keeps G Q) := by
  unfold genTypeTest
  refine .get fun s => .bind .pick fun r => ?_
  split
  · exact he.leaf _ _ rfl
  · exact .bind (counts_keeps fun s => ⟨_, _, _, rfl⟩) fun _ => getScope he fun s he hs =>
      .bind (.deeper (fun f => f.depth.lt_succ_self) (fun hG _ _ => Namespace.child_isWithin (hs hG))
        (withShadow_keeps (genBranch_keeps he))) fun _ =>
          .bind (.deeper (fun f => f.depth.lt_succ_self) (fun hG _ _ => Namespace.child_isWithin (hs hG))
            (genBranch_keeps he)) fun _ => .pure

/-! ## Expressions and bodies -/

/-- Of all ways to make an expression, only reading a variable asks for one at the same depth. -/
theorem genStrategy_keeps {strategy : Strategy} (hQP : Subrelation Q P)
    (hread : strategy = .variable → (e.expr t { o with excludeVar := true }).Always (Keeps G P)) :
    (genStrategy e strategy t o).Always (Keeps G P) := by
  have hdeeper : ∀ {x : Gen Expr}, x.Always (Keeps G Q) → x.Always (Keeps G P) := .imp (Keeps.imp hQP)
  cases strategy with
  | «variable» => exact genVariable_keeps (hread rfl)
  | constant => exact hdeeper (genConstant_keeps he)
  | new => exact hdeeper (genNew_keeps he)
  | fieldAccess => exact hdeeper (genFieldAccess_keeps he)
  | conditional => exact hdeeper (genConditional_keeps he)
  | typeTest => exact hdeeper (genTypeTest_keeps he)
  | funcCall => exact hdeeper (genFuncCall_keeps he)
  | assignment => exact hdeeper (genAssignment_keeps he)
  | logical => exact hdeeper (genLogical_keeps he)
  | equality => exact hdeeper (genEquality_keeps he)
  | comparison => exact hdeeper (genComparison_keeps he)
  | arith => exact hdeeper (genArith_keeps he)

/-- **An expression is made in a random way, and it may be moved into a variable.** What is kept to
while it is made, `P`, has to leave room for one more, where one more may be counted. -/
theorem genByStrategy_keeps (hQP : Subrelation Q P) (hPS : Subrelation P S)
    (hread : o.excludeVar = false → (e.expr t { o with excludeVar := true }).Always (Keeps G P))
    (hhoist : ∀ s' : Session, s.canHoist t o → s.Keeps G P s' → S s s'.countHoist) :
    s.Keeps G S ((genByStrategy e t o).runIn s).2 := by
  suffices h : (genByStrategy e t o).Yields (Keeps G S) s fun _ _ => True from h.1
  unfold genByStrategy
  refine .get ((Yields.of_onlyDraws (R := Keeps G S) .pick).seq fun r s₁ h₁ hr => ?_)
  refine ((Yields.of_onlyDraws (R := Keeps G S) (.onlyIf .chance)).weaken fun _ =>
    trans_of (Keeps G S) h₁).seq fun c s₂ _ hc => ?_
  have hdraws : s.Keeps G P s₂ := by
    obtain ⟨stream, rfl⟩ := trans_of OnlyDraws hr.1 hc.1
    exact AllowsDraws.draw s stream
  have hway : (genStrategy e (r.getD .new) t o).Always (Keeps G P) :=
    genStrategy_keeps he hQP fun heq => hread <| by
      cases r with
      | none => cases heq
      | some strategy =>
        obtain rfl : strategy = .variable := heq
        exact Session.excludeVar_of_reads (hr.2 _ rfl)
  have hvalue : (genStrategy e (r.getD .new) t o).Yields (fun _ s' => s.Keeps G S s') s₂ fun _ s' =>
      s.Keeps G P s' := by
    have h := trans_of (Keeps G P) hdraws (hway s₂)
    exact ⟨Keeps.imp hPS h, fun _ _ => h⟩
  split
  · rename_i hyes
    refine hvalue.seq fun value s₃ _ h₃ => ?_
    have hcount : s.Keeps G S s₃.countHoist :=
      ⟨h₃.restores.trans counts_restores, hhoist s₃ (hc.2 hyes) h₃, h₃.grows⟩
    -- The variable that is declared now is not counted again.
    refine (Yields.modify (Q := fun _ _ => True) hcount trivial).seq fun _ s₄ h₄ _ => Always.since ?_ h₄
    exact .bind (.imp (Keeps.imp hPS) (.imp (Keeps.imp hQP) (genVariableDecl_keeps he))) fun _ => .pure
  · exact hvalue.mono fun _ _ _ _ => trivial

omit he in
/-- An expression is a placeholder, a variable that is there already, or made in a random way. At the
limit of depth only leaves are made. -/
theorem genExpr_keeps (h : ∀ t b (s : Session), (b = false → s.frame.depth < s.config.limits.maxDepth) →
      s.Keeps G R ((genByStrategy e t { o with onlyLeaves := o.onlyLeaves || b }).runIn s).2) :
    (genExpr e t o).Always (Keeps G R) := by
  unfold genExpr
  refine .of_yields fun s => .get ?_
  extract_lets limit atLimit canSkip o' rest
  -- The depth is below the limit unless only leaves are asked for, and nothing before this has
  -- changed it.
  have hway : ∀ t s₁, s.Keeps G R s₁ →
      (genByStrategy e t o').Yields (fun _ s' => s.Keeps G R s') s₁ fun _ _ => True := by
    refine fun t s₁ h₁ => ⟨trans_of (Keeps G R) h₁ (h t _ s₁ fun hb => ?_), fun _ _ => trivial⟩
    rw [h₁.restores.frame, Oblivious.config _ _ h₁.also]
    exact Nat.lt_of_not_ge (of_decide_eq_false hb)
  have hrest : ∀ t s₁, s.Keeps G R s₁ → (rest t).Yields (fun _ s' => s.Keeps G R s') s₁ fun _ _ => True := by
    intro t s₁ h₁
    refine ((Always.onlyIf .chance).since h₁).seq fun _ s₂ h₂ _ => ?_
    extract_lets last
    have hlast : ∀ existing s₃, s.Keeps G R s₃ →
        (last existing).Yields (fun _ s' => s.Keeps G R s') s₃ fun _ _ => True := by
      rintro (_ | v) s₃ h₃
      · exact hway t s₃ h₃
      · exact Always.since .pure h₃
    split
    · exact .get ((Always.pick.since h₂).seq fun r s₃ h₃ _ => hlast r s₃ h₃)
    · exact .pass (hlast none s₂ h₂)
  split
  · exact .pure trivial
  · split
    · exact .pure trivial
    · split
      · exact .pure trivial
      · refine (concretize_keeps.yields s).seq fun t s₁ h₁ _ => ?_
        refine ((Always.onlyIf .chance).since h₁).seq fun _ s₂ h₂ _ => ?_
        split
        · exact (narrow_keeps.since h₂).seq fun t s₃ h₃ _ => hrest t s₃ h₃
        · exact .pass (hrest t s₂ h₂)

theorem genSideEffect_keeps : (genSideEffect e).Always (Keeps G R) :=
  .get fun _ => .bind selectType_keeps fun _ => .bind (he.expr _ _) fun _ =>
    .bind (.outer (asStatement_keeps he)) fun _ => .pure

theorem genBlock_keeps {result : Option Expr} : (genBlock e result).Always (Keeps G R) := by
  unfold genBlock
  refine .get fun _ => .bind .sizeBetween fun _ => .bind (.times (genSideEffect_keeps he)) fun _ =>
    .bind .chance fun _ => ?_
  split
  · exact .bind (.outer (genLoop_keeps he)) fun _ => .get fun _ => .pure
  · exact .pass (.get fun _ => .pure)

theorem genBody_keeps : (genBody e t).Always (Keeps G R) := by
  unfold genBody
  extract_lets isVoid rest answer
  have hrest : ∀ result, (rest result).Always (Keeps G R) := fun result => by
    refine .get fun s => .bind (.onlyIf .chance) fun _ => ?_
    split
    · exact .pure
    · exact genBlock_keeps he
  have hanswer : ∀ t, (answer t).Always (Keeps G R) := fun t => by
    refine .bind (he.expr _ _) fun value => ?_
    split
    · exact .bind (.outer (asStatement_keeps he)) hrest
    · exact .pass (hrest _)
  split
  · exact .bind selectType_keeps hanswer
  · exact .pass (hanswer t)

/-! ## Programs -/

theorem genTopLevel_keeps : (genTopLevel e).Always (Keeps G Q) := by
  unfold genTopLevel
  refine .bind .rand fun kind => ?_
  split
  · exact .bind (genVariableDecl_keeps he) fun _ => .pure
  · split
    · exact .bind (genClassDecl_keeps he) fun _ => .pure
    · exact .bind (genFuncDecl_keeps he nofun) fun _ => .pure

theorem genDeclarations_keeps : (genDeclarations e).Always (Keeps G Q) :=
  .get fun _ => .bind .sizeBetween fun _ => .bind (.times (genTopLevel_keeps he)) fun _ =>
    .bind (genMain_keeps he) fun _ => .pure

end Parts

end Gen

/-! ## Operations -/

/-- What the generator generates by, for any request. -/
inductive Gen.Generates (e : Engine) : {α : Type} → Gen α → Prop where
  | expr (t : Ty) (o : ExprOpts) : Generates e (genExpr e t o)
  | strategy (strategy : Strategy) (t : Ty) (o : ExprOpts) : Generates e (genStrategy e strategy t o)
  | new (t : Ty) (sam : Bool) : Generates e (genNew e t sam)
  | lambda (params : List Ty) (ret : Ty) (sam : Option Ty) : Generates e (genLambda e params ret sam)
  | implementation (t : Ty) : Generates e (genImplementation e t)
  | conditional (t : Ty) : Generates e (genConditional e t)
  | typeTest (t : Ty) : Generates e (genTypeTest e t)
  | loop : Generates e (genLoop e)
  | body (ret : Ty) : Generates e (genBody e ret)
  | variableDecl (type : Option Ty) (onlyLeaves : Bool) (init : Option Expr) :
      Generates e (genVariableDecl e type onlyLeaves init)
  | funcDecl (spec : FuncSpec) : Generates e (genFuncDecl e spec)
  | classDecl (spec : ClassSpec) : Generates e (genClassDecl e spec)
  | matchingClass (t : Ty) (asField : Bool) : Generates e (genMatchingClass e t asField)
  | main : Generates e (genMain e)
  | declarations : Generates e (genDeclarations e)

/-- Each operation restores what is scoped and keeps to `R`, if expressions do. Of classes nothing is said,
for a function may be asked for in any scope. -/
theorem Gen.Generates.keeps {x : Gen α} (h : x.Generates e) (he : e.Keeps False R Q)
    (hexpr : ∀ t o, (genExpr e t o).Always (Keeps False R)) : x.Always (Keeps False R) := by
  cases h with
  | expr t o => exact hexpr t o
  | strategy => exact genStrategy_keeps he (Encloses.outer _ _) fun _ => he.expr _ _
  | new => exact .outer (genNew_keeps he)
  | lambda => exact .outer (genLambda_keeps he)
  | implementation => exact .outer (genImplementation_keeps he)
  | conditional => exact .outer (genConditional_keeps he)
  | typeTest => exact .outer (genTypeTest_keeps he)
  | loop => exact .outer (genLoop_keeps he)
  | body => exact genBody_keeps he
  | variableDecl => exact .outer (genVariableDecl_keeps he)
  | funcDecl => exact .outer (genFuncDecl_keeps he nofun)
  | classDecl => exact .outer (genClassDecl_keeps he)
  | matchingClass => exact .outer (genMatchingClass_keeps he)
  | main => exact .outer (genMain_keeps he)
  | declarations => exact .outer (genDeclarations_keeps he)

/-! ## Nothing else than what is scoped -/

/-- The configuration stays what it is. -/
def Session.SameConfig (s s' : Session) : Prop := s'.config = s.config

instance : Oblivious SameConfig where
  refl _ := rfl
  trans _ _ _ h h' := Eq.trans h' h
  draw _ _ := rfl
  frame _ _ _ _ h := h
  unfinished _ _ _ h := h
  config _ _ h := h
  unseen _ _ _ h _ := h

instance : Encloses SameConfig SameConfig where
  outer _ _ h := h
  frame _ _ _ _ h := h

theorem Gen.genExpr_restores (he : e.Keeps G SameConfig SameConfig) (t : Ty) (o : ExprOpts) :
    (genExpr e t o).Always (Keeps G SameConfig) := by
  refine genExpr_keeps fun t b s _ => genByStrategy_keeps (P := SameConfig) he id id ?_ ?_
  · exact fun _ => he.expr _ _
  · exact fun _ _ h => h.also

/-- The engine restores what is scoped, however many layers it has. -/
theorem Engine.layers_restoring : ∀ n, (Engine.layers n).Keeps G SameConfig SameConfig
  | 0 => ⟨fun _ _ => .throw, fun _ _ _ => .throw, fun _ => .throw, fun _ _ => .throw⟩
  | n + 1 =>
    ⟨Gen.genExpr_restores (layers_restoring n), fun t o _ => Gen.genExpr_restores (layers_restoring n) t o,
      fun _ => Gen.genBody_keeps (layers_restoring n), fun _ _ => Gen.genNew_keeps (layers_restoring n)⟩

/-- **Whatever an operation ends in, the frame and the unfinished classes are what they were, and no
narrowing of a variable is left.** -/
theorem Gen.Generates.restored {n : Nat} {x : Gen α} (h : x.Generates (Engine.layers n)) (s : Session) :
    s.Restored (x.runIn s).2 :=
  have he := Engine.layers_restoring n
  (h.keeps he (genExpr_restores he) s).restores.toRestored

/-- A program is generated, or not: the generator is back at its start. -/
theorem restored_genDeclarations :
    (Gen.genDeclarations (Engine.layers 1)).Generates (Engine.layers 1) ∧
      (Session.start (.ofSeed 7 .kotlin) {} .kotlin).Restored
        ((Gen.genDeclarations (Engine.layers 1)).runIn (.start (.ofSeed 7 .kotlin) {} .kotlin)).2 :=
  ⟨.declarations, Gen.Generates.restored .declarations _⟩

end ProgramGen

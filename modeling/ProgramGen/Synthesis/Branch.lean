import ProgramGen.Synthesis.Value

/-!
# Conditionals

Conditionals on a boolean, and tests of a variable's type. In the true branch of a test the variable
is bound once more, with the type that was tested.
-/

namespace ProgramGen

/-- A type without variables or arguments, which a test at run time can tell apart. -/
def Ty.isTestable : Ty → Bool
  | .simple .. => true
  | .builtin .. => true
  | _ => false

/-- The variables whose type can be tested, each with one of its concrete proper subtypes. They are
final and written with their type. -/
def Session.testableVars (s : Session) : List (String × Ty) :=
  s.readableVars.flatMap fun
    | .var v =>
      if !v.isFinal || v.inferred || !v.ty.isTestable then []
      else
        ((findSubtypes v.ty s.finishedClasses s.language.valueTypes false true).filter
          (·.isTestable)).map (v.name, ·)
    | _ => []

namespace Gen

/-- A conditional whose branches may be of different subtypes of `t`. -/
def genConditional (e : Engine) (t : Ty) : Gen Expr := do
  let boolean := (← get).language.booleanType
  nested 3 do
    let cond ← e.expr boolean {}
    let onTrue ← e.expr (← narrow t) .exact
    let onFalse ← e.expr (← narrow t) .exact
    return .conditional cond onTrue onFalse t

/-- A branch: an expression, after the variables that it declared in the scope of the branch. -/
def genBranch (e : Engine) (t : Ty) (shadowed : Option String) : Gen Expr := do
  let value ← e.expr t {}
  -- The variable that the test narrows is bound, but declared nowhere.
  let decls := (← get).localDecls.filter fun d => some d.name != shadowed
  if decls.isEmpty then return value
  else return .block ⟨decls.map Stmt.decl ++ [.expr value], false⟩

/-- A branch in a scope of its own. -/
def inBranch {α : Type} (ns : Namespace) (body : Gen α) : Gen α :=
  inFrame (fun f => { f.enter ns with inValueBranch := true }) body

/-- A conditional on the type of a variable; without such a variable, a leaf. -/
def genTypeTest (e : Engine) (t : Ty) : Gen Expr := do
  match ← pick (← get).testableVars with
  | none => e.expr t .leaves
  | some (var, sub) =>
    modify fun s => { s with branchCount := s.branchCount + 1 }
    let s ← get
    let n := toString s.branchCount
    let onTrueNs := s.frame.ns.child ("true_block_" ++ n)
    let onFalseNs := s.frame.ns.child ("false_block_" ++ n)
    let shadow : Decl := .var ⟨var, sub, .var var sub, true, false⟩
    let onTrue ← inBranch onTrueNs (withShadow onTrueNs shadow (genBranch e t (some var)))
    let onFalse ← inBranch onFalseNs (genBranch e t none)
    return .conditional (.instanceOf var sub s.language.booleanType) onTrue onFalse t

end Gen

end ProgramGen

import ProgramGen.Synthesis.Branch
import ProgramGen.Synthesis.Loop
import ProgramGen.Synthesis.Member

/-!
# Expressions and bodies

The choice among all kinds of expression, the bodies of functions, and the engine that ties the
parts of the generator together. The engine is layered: a part calls the layer below, and the number
of layers is far above what the depth limit lets a program reach.
-/

namespace ProgramGen

/-- A way to make an expression. -/
inductive Strategy where
  | constant
  | variable
  | new
  | fieldAccess
  | conditional
  | typeTest
  | funcCall
  | assignment
  | logical
  | equality
  | comparison
  | arith
  deriving DecidableEq, Repr

/-- The ways to make an expression of type `t`. -/
def Session.strategies (s : Session) (t : Ty) (o : ExprOpts) : List Strategy :=
  let hasConstant := s.hasConstant t
  let reads := if o.excludeVar then [] else [Strategy.variable]
  if t.isVoid then [.funcCall, .assignment]
  else if o.onlyLeaves then
    if hasConstant then [.constant] else .new :: reads
  else
    let value :=
      if !hasConstant then [.new]
      else if t.builtinKind? = some .boolean then [.constant, .logical, .equality, .comparison]
      else [.constant]
    let arith := if (s.language.arithOperands t).isEmpty then [] else [Strategy.arith]
    [.fieldAccess, .conditional, .typeTest, .funcCall] ++ reads ++ value ++ arith

namespace Gen

/-! ## Expressions -/

/-- An expression of type `t` made in one way. -/
def genStrategy (e : Engine) (strategy : Strategy) (t : Ty) (o : ExprOpts) : Gen Expr :=
  match strategy with
  | .constant => genConstant e t
  | .variable => genVariable e t o
  | .new => genNew e t o.samCoercion
  | .fieldAccess => genFieldAccess e t
  | .conditional => genConditional e t
  | .typeTest => genTypeTest e t
  | .funcCall => genFuncCall e t
  | .assignment => genAssignment e
  | .logical => genLogical e t
  | .equality => genEquality e t
  | .comparison => genComparison e t
  | .arith => genArith e t

/-- An expression of type `t` made in a random way. It may be moved into a new variable, which is
then read. -/
def genByStrategy (e : Engine) (t : Ty) (o : ExprOpts) : Gen Expr := do
  let s ← get
  let strategy := (← pick (s.strategies t o)).getD .new
  if ← onlyIf (s.canHoist t o) (chance (·.sideEffectDecl)) then
    let value ← genStrategy e strategy t o
    -- Counted only now: what was generated for the value in this scope was judged without it.
    modify fun s => { s with hoisted := s.hoisted.insert s.frame.ns (s.hoistedHere + 1) }
    let v ← genVariableDecl e (some t) false (some value)
    return .var v.name v.ty
  else genStrategy e strategy t o

/-- An expression whose type is assignable to `type`, unless the depth allows only a placeholder:
beyond the limit for values of classes, and beyond twice the limit for all that has no literals. -/
def genExpr (e : Engine) (type : Ty) (o : ExprOpts) : Gen Expr := do
  let s ← get
  let limit := s.config.limits.maxDepth
  let atLimit := s.frame.depth ≥ limit
  let canSkip := s.frame.allowPlaceholders
  if atLimit && !type.isBuiltin && canSkip then return .unresolved type
  else if s.frame.depth > 2 * limit && !s.hasConstant type then return .unresolved type
  else if o.placeholder && canSkip then return .unresolved type
  else
    let o := { o with onlyLeaves := o.onlyLeaves || atLimit }
    let t ← concretize type
    let t ←
      if ← onlyIf (o.narrowing && !t.isVoid) (chance (·.subtypeNarrowing)) then narrow t
      else pure t
    let existing ←
      if ← onlyIf (!o.excludeVar) (chance (·.existingVar)) then
        pick ((← get).exactReads t)
      else pure none
    match existing with
    | some v => return v
    | none => genByStrategy e t o

/-! ## Bodies -/

/-- An expression made for its effect, as a statement if it is one. -/
def genSideEffect (e : Engine) : Gen (Option Stmt) := do
  let s ← get
  -- Without a result there is only a call or an assignment, and neither is a leaf.
  let t ← selectType { withVoid := s.frame.depth < s.config.limits.maxDepth }
  let value ← e.expr t {}
  return (← asStatement e value).map Stmt.expr

/-- A block for the current scope: its declarations, statements made for their effect, at times a
loop, and the result. -/
def genBlock (e : Engine) (result : Option Expr) : Gen Expr := do
  let count ← sizeBetween 0 (← get).config.limits.func.maxSideEffects
  let effects ← times count (genSideEffect e)
  let loop ← if ← chance (·.loopInBody) then genLoop e else pure []
  let decls := (← get).localDecls.map Stmt.decl
  return .block
    ⟨decls ++ (effects.filterMap id ++ loop) ++ result.toList.map Stmt.expr, true⟩

/-- The body of the function or closure whose scope is current: an expression, or a block whose last
statement is the result. -/
def genBody (e : Engine) (ret : Ty) : Gen Expr := do
  let isVoid := ret.isVoid
  -- A function without result has an expression all the same, for its effect.
  let t ← if isVoid then selectType {} else pure ret
  let value ← e.expr t { samCoercion := true }
  let result ← if isVoid then asStatement e value else pure (some value)
  let bare ←
    onlyIf (!isVoid && (← get).localDecls.isEmpty) (chance (·.functionExpr))
  match bare, result with
  | true, some r => return r
  | _, _ => genBlock e result

end Gen

/-! ## The engine -/

/-- The engine with `n` layers. -/
def Engine.layers : Nat → Engine
  | 0 => .exhausted
  | n + 1 =>
    { expr := fun t o => Gen.genExpr (Engine.layers n) t o
      body := fun t => Gen.genBody (Engine.layers n) t
      new := fun t sam => Gen.genNew (Engine.layers n) t sam }

/-- The layers that a configuration needs at most, and more: in each level of depth the entries call
one another only a few times, and no level is deeper than twice the limit and the types that a
program nests. -/
def Limits.layers (l : Limits) : Nat := 64 * (l.maxDepth + 64)

/-- The engine for a configuration. -/
def Config.engine (c : Config) : Engine := Engine.layers c.limits.layers

end ProgramGen

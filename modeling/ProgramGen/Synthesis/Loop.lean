import ProgramGen.Synthesis.Call
import ProgramGen.Synthesis.Literal

/-!
# Loops

Loops at the end of a body: over a collection or by counting, each in two shapes. A loop may append
to a string, whose length is printed afterwards.
-/

namespace ProgramGen

/-- Call a method without parameters. -/
def Expr.callMethod (receiver : Expr) (name : String) (ret : Ty) : Expr :=
  .call (some receiver) name [] [] ret false

namespace Session

/-- What a loop can go through: lists of classes that are not generic or of values, arrays of values
in Kotlin, and integers. -/
def iterableTypes (s : Session) : List Ty :=
  let l := s.language
  let classes := ((s.classes.filter fun c => !c.isGeneric && !s.isUnfinished c.name)).map (·.type)
  let values := l.valueTypes.filter fun t => !t.isConstructor
  let arrays := match l with
    | .kotlin => values.map l.arrayOf
    | .java => []
  (classes ++ values).map l.arrayListOf ++ arrays ++ [l.integerType]

/-- The string variables that can be assigned. -/
def stringVars (s : Session) : List String :=
  s.assignableVars.filterMap fun
    | .var v => if v.ty = s.language.stringType then some v.name else none
    | _ => none

/-- Calls of methods without parameters on readable variables. -/
def simpleCalls (s : Session) : List Expr :=
  s.readableVars.flatMap fun d =>
    match d.varType? with
    | none => []
    | some t =>
      match s.anyReceiver? t with
      | none => []
      | some (c, m) =>
        (c.funcs.filter fun f => f.params.isEmpty && !f.isGeneric).map fun f =>
          (Expr.var d.name t).callMethod f.name (f.ret.subst m)

end Session

namespace Gen

/-- A string variable that the loop can append to, declared if there is none. -/
def stringAccumulator (e : Engine) : Gen String := do
  let s ← get
  match ← pick s.stringVars with
  | some name => return name
  | none =>
    let v ← genVariableDecl e (some s.language.stringType) true none
    makeMutable v.name
    return v.name

/-- The statement that appends a new piece to a string. -/
def genAppend (e : Engine) (var : String) : Gen Stmt := do
  let string := (← get).language.stringType
  let piece ← nested 1 (e.expr string {})
  return .expr (.assign none var (.arith .add (.var var string) piece string false))

/-- The statements of a body. Where the program is as deep as it may get, there are only the
declarations and a simple call. -/
def genLoopStmts (e : Engine) : Gen (List Stmt) := do
  let s ← get
  if s.frame.depth ≥ s.config.limits.maxDepth then
    let call ← pick s.simpleCalls
    return s.localDecls.map Stmt.decl ++ call.toList.map Stmt.expr
  else
    match ← e.body s.language.voidType with
    | .block b => return b.stmts
    | other => return [.expr other]

/-- The body of a loop in a scope of its own; at its end it appends to the string and takes the last
step. -/
def genLoopBody (e : Engine) (ns : Namespace) (string : Option String) (last : Option Expr) :
    Gen Block :=
  inFrame (fun f => { f.enter ns with inFuncBody := true, inValueBranch := false }) do
    let stmts ← genLoopStmts e
    let append ← match string with
      | some var => pure [← genAppend e var]
      | none => pure []
    return ⟨stmts ++ append ++ last.toList.map Stmt.expr, false⟩

/-- A loop over a collection: by elements, or with an iterator. -/
def genCollectionLoop (e : Engine) (ns : Namespace) (iterableType elem : Ty)
    (string : Option String) : Gen Loop := do
  let iterable ← nested 1 (e.expr iterableType {})
  let var ← word
  if ← chance (·.loopShape) then
    updateContext (·.addVar ns (.param ⟨var, elem, none⟩))
    return .forEach var iterable (← genLoopBody e ns string none)
  else
    let s ← get
    -- An iterator is declared before the loop, and read at the start of its body.
    let iteratorType := s.language.iteratorOf elem
    let iterator ← word
    updateContext (·.addVar s.frame.ns (.var
      ⟨iterator, iteratorType, iterable.callMethod "iterator" iteratorType, true, false⟩))
    let read : Expr := .var iterator iteratorType
    updateContext (·.addVar ns (.var ⟨var, elem, read.callMethod "next" elem, true, false⟩))
    let cond := read.callMethod "hasNext" s.language.booleanType
    let body ← genLoopBody e ns string none
    return .whileCond cond body !(← chance (·.loopShape))

/-- A loop that counts: over a range, or with a counter. -/
def genCountingLoop (e : Engine) (ns : Namespace) (string : Option String) : Gen Loop := do
  let s ← get
  let int := s.language.integerType
  if ← chance (·.loopShape) then
    let stop ← integerText .i64 1000000 10000000
    -- The variable of a range is not registered, and so the body does not read it.
    let var ← word
    let body ← genLoopBody e ns string none
    return .forRange var (.const "0" int) (.const stop int) body
  else
    let counter ← word
    updateContext (·.addVar s.frame.ns (.var ⟨counter, int, .const "0" int, false, false⟩))
    let limit ← integerText .i64 1 100
    let op := if ← coin then CmpOp.lt else .le
    let cond : Expr :=
      .comparison op (.var counter int) (.const limit int) s.language.booleanType
    let body ← genLoopBody e ns string (some (.step counter .inc))
    return .whileCond cond body (← coin)

/-- A loop, and the print of the string that it built. What the loop needs is declared in the
current scope. -/
def genLoop (e : Engine) : Gen (List Stmt) := do
  modify fun s => { s with loopCount := s.loopCount + 1 }
  let s ← get
  let ns := s.frame.ns.child ("loop_" ++ toString s.loopCount)
  let iterableType := (← pick s.iterableTypes).getD s.language.integerType
  let string ←
    if ← chance (·.loopStringConcat) then some <$> stringAccumulator e else pure none
  let loop ← match iterableType.args with
    | elem :: _ => genCollectionLoop e ns iterableType elem string
    | [] => genCountingLoop e ns string
  let print := match string with
    | some var =>
      [Stmt.expr (.print (.stringLength (.var var s.language.stringType) s.language.integerType))]
    | none => []
  return .expr (.loop loop) :: print

end Gen

end ProgramGen

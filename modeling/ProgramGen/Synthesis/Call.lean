import ProgramGen.Catalog.Members
import ProgramGen.Synthesis.Class

/-!
# Calls

A call goes through a variable of function type, to a function that can be called from here, or to
one that is declared for the purpose. A generic callee is bound so that its result, viewed through
its receiver, fits the request.
-/

namespace ProgramGen

/-- A function that can be called, how it is reached, and what the type parameters of the receiver
and of the function itself stand for. -/
structure Callee where
  func : FuncDecl
  receiver : Option Expr
  view : Subst

/-- Whether a result of type `ret` fits a request for `t`. Functions without a result are called
only for their effect, and only they are. -/
def returnFits (ret t : Ty) : Bool :=
  if t.isVoid || ret.isVoid then t.isVoid && ret.isVoid else ret.isAssignable t

/-- The variables of function type whose result is assignable to `t`. -/
def Session.callableVars (s : Session) (t : Ty) : List (String × List Ty × Ty) :=
  s.readableVars.filterMap fun d =>
    match d.varType?.bind Ty.functionSignature? with
    | some (params, ret) => if ret.isAssignable t then some (d.name, params, ret) else none
    | none => none

/-- Whether a function can be declared where the generator is. -/
def Session.canNestFunc (s : Session) : Bool :=
  !s.frame.ns.isGlobal && s.frame.ns.className?.isNone && s.frame.inFuncBody &&
    !s.frame.inValueBranch && !s.frame.inSuperCall

/-- The class of a receiver, one of the program's or a builtin one, and how its members are seen. -/
def Session.anyReceiver? (s : Session) (t : Ty) : Option (ClassDecl × Subst) :=
  match s.receiver? t with
  | some r => some r
  | none => (s.language.classOf? t).map (·, ∅)

namespace Gen

/-! ## Arguments -/

/-- An argument of a call. Projected types get a placeholder. -/
def genArg (e : Engine) (t : Ty) : Gen Expr :=
  e.expr t { placeholder := t.hasWildcards, samCoercion := true }

/-- Call a function variable, if there is one that fits. -/
def genRefCall (e : Engine) (t : Ty) : Gen (Option Expr) := do
  match ← pick ((← get).callableVars t) with
  | none => return none
  | some (name, params, ret) =>
    let args ← nested 1 (params.mapM (genArg e))
    return some (.call none name [] args ret true)

/-- Call a function. Kotlin leaves out the parameters that have default values. -/
def buildCall (e : Engine) (c : Callee) : Gen Expr := do
  let l := (← get).language
  let params := c.func.params.filter fun p => !(l == .kotlin && p.defaultValue.isSome)
  let args ← nested 1 (params.mapM fun p => genArg e (p.ty.subst c.view))
  let typeArgs := c.func.typeParams.filterMap fun p => c.view.lookup p.name
  -- Nested functions are values in Java, and are called as such.
  return .call c.receiver c.func.name typeArgs args (c.func.ret.subst c.view)
    (c.func.kind == .nested)

/-! ## Callees in scope -/

/-- Bind the type parameters of a function so that its result fits, if that is possible. -/
def bindCallee (f : FuncDecl) (view : Subst) (t : Ty) : Gen (Option Subst) := do
  let ret := f.ret.subst view
  if !f.isGeneric then
    return if returnFits ret t then some view else none
  else
    let fixed :=
      if ret.hasVariables && !t.isVoid then
        match t.unify? ret with
        | some m => view.insertMissing m
        | none => view
      else view
    -- What the request leaves open is chosen at random.
    let types ← candidateTypes .arguments
    match ← rand (instantiateFunction types f.typeParams fixed) with
    | none => return none
    | some m => return if returnFits (f.ret.subst m) t then some m else none

/-- Those of some functions that can be bound, each with its receiver. -/
def bindCallees (t : Ty) : List (FuncDecl × Option Expr × Subst) → Gen (List Callee)
  | [] => return []
  | (f, receiver, view) :: rest => do
    let bound ← bindCallee f view t
    let others ← bindCallees t rest
    return match bound with
      | some m => ⟨f, receiver, m⟩ :: others
      | none => others

end Gen

namespace Session

variable (s : Session)

/-- The functions that can be called without a receiver, or on the object itself; not those whose
bodies are being generated. -/
def visibleFuncs : List (FuncDecl × Option Expr × Subst) :=
  (s.context.funcs s.frame.ns true).filterMap fun f =>
    if s.frame.ns.segments.contains f.name then none
    else if f.kind = .method then
      match s.thisType? with
      | some this => if s.frame.inSuperCall then none else some (f, some (.var "this" this), ∅)
      | none => none
    else some (f, none, ∅)

/-- The methods of readable variables. -/
def receiverFuncs : List (FuncDecl × Option Expr × Subst) :=
  s.readableVars.flatMap fun d =>
    match d.varType? with
    | none => []
    | some t =>
      match s.anyReceiver? t with
      | none => []
      | some (c, view) => c.funcs.map fun f => (f, some (.var d.name t), view)

end Session

namespace Gen

/-- All that can be called with a result that fits. -/
def callees (t : Ty) : Gen (List Callee) := do
  let visible ← bindCallees t (← get).visibleFuncs
  let methods ← bindCallees t (← get).receiverFuncs
  return visible ++ methods

/-! ## New callees -/

/-- Declare a function that returns `t`, and call it. -/
def callNewFunc (e : Engine) (ns : Namespace) (t : Ty) : Gen Expr := do
  let f ← genFuncDecl e { ret := some t, notVoid := !t.isVoid, ns := some ns }
  buildCall e ⟨f, none, ∅⟩

/-- Declare a class with a method that returns `t`, and call it on a new receiver. -/
def callNewMethod (e : Engine) (t : Ty) : Gen Expr := do
  let (receiverType, memberType) ← genMatchingClass e t false
  match (← get).receiver? receiverType with
  | none => return .unresolved t
  | some (c, view) =>
    match c.funcs.find? (·.ret == memberType) with
    | none => return .unresolved t
    | some f =>
      let receiver ← nested 1 (e.expr receiverType {})
      buildCall e ⟨f, some receiver, view⟩

/-- A call whose result is assignable to `t`. -/
def genFuncCall (e : Engine) (t : Ty) : Gen Expr := do
  let viaVariable ←
    if ← onlyIf (!t.isVoid) (chance (·.funcRefCall)) then genRefCall e t else pure none
  match viaVariable with
  | some call => return call
  | none =>
    match ← pick (← callees t) with
    | some c => buildCall e c
    | none =>
      -- A type with variables means something only where they are bound.
      if !t.hasVariables then
        if ← coin then callNewFunc e .global t else callNewMethod e t
      else if (← get).canNestFunc then callNewFunc e (← get).frame.ns t
      else callNewMethod e t

end Gen

end ProgramGen

import ProgramGen.Synthesis.Engine

/-!
# Variables

Reading variables and declaring them. A declaration is registered in the current scope at once; the
block that is generated for the scope collects it later.
-/

namespace ProgramGen

/-! ## What may be declared -/

namespace Session

/-- Whether a type has literals; arrays do. -/
def hasConstant (s : Session) (t : Ty) : Bool :=
  match t with
  | .builtin _ k _ _ _ => k.isNumeric || k == .number || k == .char || k == .string || k == .boolean
  | .applied c _ => c.builtin && c.name == s.language.arrayName
  | _ => false

/-- How many expressions were moved into variables of the current scope. -/
def hoistedHere (s : Session) : Nat := s.hoisted.getD s.frame.ns 0

/-- Whether an expression of type `t` may be moved into a new variable of the current scope. -/
def canHoist (s : Session) (t : Ty) (o : ExprOpts) : Bool :=
  !o.onlyLeaves && !t.isVoid && s.frame.inFuncBody && !s.frame.inSuperCall &&
    !(s.language == .java && s.frame.inValueBranch) &&
    s.hoistedHere < s.config.limits.maxVarDecls

/-- The readable variables whose type is assignable to `t`. -/
def assignableReads (s : Session) (t : Ty) : List Expr :=
  s.readableVars.filterMap fun d =>
    match d.varType? with
    | some v => if v.isAssignable t then some (.var d.name v) else none
    | none => none

/-- The readable variables and parameters of just the type `t`. -/
def exactReads (s : Session) (t : Ty) : List Expr :=
  s.readableVars.filterMap fun
    | .var v => if v.ty = t then some (.var v.name t) else none
    | .param p => if p.ty = t then some (.var p.name t) else none
    | _ => none

end Session

/-- Whether the compiler of a language can find the type of a final variable from its
initializer. -/
def Expr.typeIsEvident (l : Language) (e : Expr) : Bool :=
  match e with
  | .lambda _ => false
  | .funcRef .. => false
  | .unresolved _ => false
  | .array .. => false
  -- The branches may be closures.
  | .conditional .. => l != .java
  | .const _ t =>
    -- Literals of these types would be taken for integers.
    match t.builtinKind? with
    | some .byte => false
    | some .short => false
    | some .number => false
    | _ => true
  | _ => true

/-- Whether a declaration can leave out its type. -/
def canInfer (l : Language) (ns : Namespace) (isFinal : Bool) (t : Ty) (init : Expr) : Bool :=
  isFinal && !(ns.isGlobal && l == .java) && init.typeIsEvident l && init.ty? == some t

namespace Gen

/-! ## Declarations -/

/-- Declare a variable in the current scope; an initializer is generated unless it is given. -/
def genVariableDecl (e : Engine) (type : Option Ty) (onlyLeaves : Bool) (init : Option Expr) :
    Gen VarDecl := do
  let t ← match type with
    | some t => pure t
    | none => selectType {}
  let t ← if t.isWildcard then concretize t else pure t
  let s ← get
  let ns := s.frame.ns
  let value ← match init with
    | some v => pure v
    | none =>
      inFrame
        (fun f =>
          { f with depth := f.depth + 1, allowPlaceholders := f.allowPlaceholders && !ns.isGlobal })
        (e.expr t { onlyLeaves := onlyLeaves, samCoercion := true })
  let isFinal ← coin
  let inferred := (← coin) && canInfer s.language ns isFinal t value
  -- The name is drawn last, so that those declared along with the initializer come before it.
  let decl : VarDecl := ⟨← word, t, value, isFinal, inferred⟩
  updateContext (·.addVar ns (.var decl))
  return decl

/-- Let a variable of the current scope be assigned. -/
def makeMutable (name : String) : Gen Unit := do
  let ns := (← get).frame.ns
  modifyContext (·.modify ns .var name fun
    | .var v => .var { v with isFinal := false, inferred := false }
    | d => d)

/-- Use an expression as a statement. One that is not a statement in Java becomes the initializer of
a new variable, and nothing is left to write down. -/
def asStatement (e : Engine) (value : Expr) : Gen (Option Expr) :=
  match value with
  | .new .. => return some value
  | .call .. => return some value
  | .assign .. => return some value
  | .step .. => return some value
  | .loop _ => return some value
  | .print _ => return some value
  | _ => do
    match value.ty? with
    | none => return some value
    | some t =>
      if t.isVoid then return some value
      else
        let _ ← genVariableDecl e (some t) false (some value)
        return none

/-! ## Reading -/

/-- A variable, or something else if none fits. -/
def genVariable (e : Engine) (t : Ty) (o : ExprOpts) : Gen Expr := do
  match ← pick ((← get).assignableReads t) with
  | some v => return v
  | none => e.expr t { o with excludeVar := true }

end Gen

end ProgramGen

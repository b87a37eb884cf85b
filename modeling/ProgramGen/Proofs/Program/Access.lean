import ProgramGen.Synthesis.Program

/-!
# Access to variables

What each place of a program can do with the variables around it. A place sees the variables that
are declared around it, from the inside out; inside a closure, a variable of the code around the
closure can only be read, and only if it never changes. Fields and the variables of the top level are
shared by all code that sees them.
-/

namespace ProgramGen

/-- What a place can do with a variable that it sees. -/
inductive Access where
  /-- The variable never changes. -/
  | constant
  /-- A changing field or variable of the top level. -/
  | shared
  /-- A changing local variable of the closure that the place is in, or of no closure. -/
  | own
  /-- A changing local variable from outside the closure that the place is in. -/
  | outer
  deriving DecidableEq, Repr

/-- Whether the variable can be assigned. -/
def Access.isTarget : Access → Bool
  | .shared | .own => true
  | .constant | .outer => false

/-- The variables that a place sees, nearest first. -/
abbrev Visibility := List (String × Access)

namespace Visibility

/-- What is seen inside a closure of what is seen around it. -/
def enterClosure (v : Visibility) : Visibility :=
  v.map fun (n, a) => (n, match a with | .own => .outer | a => a)

/-- How a name is accessed: as the nearest declaration of it is. -/
def access? (v : Visibility) (name : String) : Option Access := v.lookup name

end Visibility

/-! ## Declarations as they are seen -/

/-- How a local variable is accessed by the code around it. -/
def VarDecl.localAccess (v : VarDecl) : Access := if v.isFinal then .constant else .own

/-- Parameters never change. -/
def parameters (ps : List ParamDecl) : Visibility := ps.map fun p => (p.name, .constant)

/-- The local variables of a block. -/
def Block.locals (b : Block) : Visibility :=
  b.stmts.filterMap fun
    | .decl (.var v) => some (v.name, v.localAccess)
    | _ => none

/-- The fields of a class. -/
def ClassDecl.variables (c : ClassDecl) : Visibility :=
  c.fields.map fun f => (f.name, if f.isFinal then .constant else .shared)

/-- The variables of the top level. -/
def Program.variables (p : Program) : Visibility :=
  p.topLevel.filterMap fun
    | .var v => some (v.name, if v.isFinal then .constant else .shared)
    | _ => none

/-! ## Places -/

/-- The default values of parameters. -/
def defaults (ps : List ParamDecl) : List Expr := ps.filterMap (·.defaultValue)

/-- The expressions of a function that stands where `v` is seen. The body of a nested function is a
closure. -/
def FuncDecl.places (v : Visibility) (f : FuncDecl) : List (Visibility × Expr) :=
  (defaults f.params).map (v, ·) ++ f.body.toList.map fun body =>
    (parameters f.params ++ (if f.kind = .nested then v.enterClosure else v), body)

/-- The expressions of a closure. -/
def LambdaDecl.places (v : Visibility) (l : LambdaDecl) : List (Visibility × Expr) :=
  (defaults l.params).map (v, ·) ++ [(parameters l.params ++ v.enterClosure, l.body)]

/-- The arguments for the constructors of the superclasses. -/
def ClassDecl.superArgs (c : ClassDecl) : List Expr := c.supers.flatMap fun s => s.args.getD []

/-- The expressions of a declaration that stands where `v` is seen. -/
def Decl.places (v : Visibility) : Decl → List (Visibility × Expr)
  | .var x => [(v, x.init)]
  | .param p => (defaults [p]).map (v, ·)
  | .field _ => []
  | .func f => f.places v
  | .cls c => c.superArgs.map (v, ·) ++ c.funcs.flatMap (·.places (c.variables ++ v))
  | .lambda l => l.places v

/-- The expressions of a block that stands where `v` is seen. -/
def Block.places (v : Visibility) (b : Block) : List (Visibility × Expr) :=
  b.stmts.flatMap fun
    | .decl d => d.places (b.locals ++ v)
    | .expr e => [(b.locals ++ v, e)]

/-- The expressions of a loop that stands where `v` is seen. -/
def Loop.places (v : Visibility) : Loop → List (Visibility × Expr)
  | .forEach x iterable body => (v, iterable) :: body.places ((x, .constant) :: v)
  | .forRange x start stop body =>
    (v, start) :: (v, stop) :: body.places ((x, .constant) :: v)
  | .whileCond cond body _ => (v, cond) :: body.places v

/-- The variable that a loop declares itself. -/
def Loop.variables : Loop → Visibility
  | .forEach x .. => [(x, .constant)]
  | .forRange x .. => [(x, .constant)]
  | .whileCond .. => []

theorem Loop.places_eq (l : Loop) (v : Visibility) :
    l.places v = l.head.map (v, ·) ++ l.body.places (l.variables ++ v) := by
  cases l <;> rfl

/-- The direct parts of an expression, each with what is seen there. -/
def Expr.places (v : Visibility) (e : Expr) : List (Visibility × Expr) :=
  match e with
  | .block b => b.places v
  | .lambda l => l.places v
  | .loop l => l.places v
  | e => e.children.map (v, ·)

/-- The expressions of a program, at any depth, each with what is seen there. -/
inductive Program.Contains (p : Program) : Visibility → Expr → Prop where
  | top {d x} (hd : d ∈ p.topLevel) (hx : x ∈ d.places p.variables) : Contains p x.1 x.2
  | part {v e x} (he : Contains p v e) (hx : x ∈ e.places v) : Contains p x.1 x.2

end ProgramGen

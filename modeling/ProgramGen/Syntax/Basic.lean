import ProgramGen.Ty.Basic
import ProgramGen.Syntax.Op

/-!
# Program trees

Declarations, expressions, statements and loops of a generated program. One tree serves both target
languages; every expression that has a value records its type. Declarations hold expressions and
blocks of expressions hold declarations, so all of them are defined together.
-/

namespace ProgramGen

/-- Where a function is declared. -/
inductive FuncKind where
  | topLevel
  | method
  /-- Inside the body of another function. -/
  | nested
  deriving DecidableEq, Repr, Inhabited

inductive ClassKind where
  | regular
  | abstract
  | interface
  deriving DecidableEq, Repr, Inhabited

/-- A field of a class. -/
structure FieldDecl where
  name : String
  ty : Ty
  isFinal : Bool
  /-- Subclasses may override it. -/
  canOverride : Bool
  isOverride : Bool
  deriving DecidableEq

mutual

/-- An expression. -/
inductive Expr where
  /-- A value that could not be built in the room that was left; its type is below every other. -/
  | unresolved (ty : Ty)
  | const (literal : String) (ty : Ty)
  | var (name : String) (ty : Ty)
  | block (body : Block)
  | conditional (cond onTrue onFalse : Expr) (ty : Ty)
  /-- A test of a variable's type, which narrows the variable in the true branch of a conditional
  on it. -/
  | instanceOf (var : String) (target ty : Ty)
  | logical (op : LogicalOp) (lhs rhs : Expr) (ty : Ty)
  | equality (op : EqOp) (lhs rhs : Expr) (ty : Ty)
  | comparison (op : CmpOp) (lhs rhs : Expr) (ty : Ty)
  /-- Arithmetic; `cast` narrows the promoted result back to `ty`. -/
  | arith (op : ArithOp) (lhs rhs : Expr) (ty : Ty) (cast : Bool)
  | new (ty : Ty) (args : List Expr)
  | field (receiver : Expr) (name : String) (ty : Ty)
  /-- A call; `ofValue` marks the call of a variable of function type. -/
  | call (receiver : Option Expr) (name : String) (typeArgs : List Ty) (args : List Expr) (ret : Ty)
      (ofValue : Bool)
  | funcRef (receiver : Option Expr) (name : String) (signature : Ty)
  | lambda (decl : LambdaDecl)
  | array (ty : Ty) (elems : List Expr)
  | cast (value : Expr) (ty : Ty)
  | assign (receiver : Option Expr) (name : String) (value : Expr)
  | step (name : String) (op : StepOp)
  | loop (body : Loop)
  /-- The length of a string. -/
  | stringLength (value : Expr) (ty : Ty)
  | print (value : Expr)

/-- Declarations and expressions in order. The last expression of a function's body is its value. -/
structure Block where
  stmts : List Stmt
  isFuncBody : Bool

inductive Stmt where
  | decl (d : Decl)
  | expr (e : Expr)

inductive Loop where
  | forEach (var : String) (iterable : Expr) (body : Block)
  /-- Counts from `start` up to, but not including, `stop`. -/
  | forRange (var : String) (start stop : Expr) (body : Block)
  /-- With `bodyFirst` the condition is tested after the body. -/
  | whileCond (cond : Expr) (body : Block) (bodyFirst : Bool)

/-- A declaration. -/
inductive Decl where
  | var (v : VarDecl)
  | param (p : ParamDecl)
  | field (f : FieldDecl)
  | func (f : FuncDecl)
  | cls (c : ClassDecl)
  | lambda (l : LambdaDecl)

/-- A local or top-level variable. -/
structure VarDecl where
  name : String
  ty : Ty
  init : Expr
  isFinal : Bool
  /-- Written without its type, which the compiler has to infer. -/
  inferred : Bool

structure ParamDecl where
  name : String
  ty : Ty
  defaultValue : Option Expr

structure FuncDecl where
  name : String
  params : List ParamDecl
  ret : Ty
  /-- Abstract functions have none. -/
  body : Option Expr
  kind : FuncKind
  typeParams : List TypeParam
  isFinal : Bool
  isOverride : Bool

structure ClassDecl where
  name : String
  kind : ClassKind
  typeParams : List TypeParam
  supers : List SuperDecl
  fields : List FieldDecl
  funcs : List FuncDecl
  isFinal : Bool

/-- A supertype in the header of a class, with constructor arguments unless it is an interface. -/
structure SuperDecl where
  ty : Ty
  args : Option (List Expr)

/-- A closure. Its name is the part of the namespace that its parameters live in. -/
structure LambdaDecl where
  name : String
  params : List ParamDecl
  ret : Ty
  body : Expr
  /-- The function type of the closure. -/
  signature : Ty
  /-- The interface that the closure implements, if any. -/
  samTarget : Option Ty

end

instance : Inhabited Expr := ⟨.step "" .inc⟩

/-! ## Declarations -/

namespace FuncDecl

def isAbstract (f : FuncDecl) : Bool := f.body.isNone

def isGeneric (f : FuncDecl) : Bool := !f.typeParams.isEmpty

def paramTypes (f : FuncDecl) : List Ty := f.params.map (·.ty)

end FuncDecl

namespace ClassDecl

/-- A class without members. -/
def plain (name : String) (kind : ClassKind) : ClassDecl := ⟨name, kind, [], [], [], [], false⟩

def isInterface (c : ClassDecl) : Bool := c.kind = .interface

/-- Interfaces and abstract classes have no instances of their own. -/
def isAbstract (c : ClassDecl) : Bool := c.kind ≠ .regular

def isRegular (c : ClassDecl) : Bool := c.kind = .regular

def isGeneric (c : ClassDecl) : Bool := !c.typeParams.isEmpty

def supertypes (c : ClassDecl) : List Ty := c.supers.map (·.ty)

/-- The class as a type constructor. -/
def ctor (c : ClassDecl) : TypeCtor := ⟨c.name, c.typeParams, c.supertypes, false⟩

/-- The class as a type: a constructor if it is generic. -/
def type (c : ClassDecl) : Ty :=
  if c.typeParams.isEmpty then .simple c.name c.supertypes else .constructor c.ctor

def fieldTypes (c : ClassDecl) : List Ty := c.fields.map (·.ty)

def abstractFuncs (c : ClassDecl) : List FuncDecl := c.funcs.filter (·.isAbstract)

def overridableFuncs (c : ClassDecl) : List FuncDecl := c.funcs.filter (!·.isFinal)

def overridableFields (c : ClassDecl) : List FieldDecl := c.fields.filter (·.canOverride)

end ClassDecl

namespace Decl

def name : Decl → String
  | var v => v.name
  | param p => p.name
  | field f => f.name
  | func f => f.name
  | cls c => c.name
  | lambda l => l.name

/-- The type of a variable, parameter or field. -/
def varType? : Decl → Option Ty
  | var v => some v.ty
  | param p => some p.ty
  | field f => some f.ty
  | _ => none

/-- Parameters and closures never change. -/
def isFinal : Decl → Bool
  | var v => v.isFinal
  | param _ => true
  | field f => f.isFinal
  | func f => f.isFinal
  | cls c => c.isFinal
  | lambda _ => true

end Decl

/-! ## Expressions -/

/-- The expression of a statement: the initializer of a variable, or the statement itself. -/
def Stmt.expr? : Stmt → Option Expr
  | .expr e => some e
  | .decl (.var v) => some v.init
  | .decl _ => none

/-- The expressions and initializers of a block, in order. -/
def Block.exprs (b : Block) : List Expr := b.stmts.filterMap Stmt.expr?

namespace Loop

/-- What is evaluated outside the body. -/
def head : Loop → List Expr
  | forEach _ iterable _ => [iterable]
  | forRange _ start stop _ => [start, stop]
  | whileCond cond _ _ => [cond]

def body : Loop → Block
  | forEach _ _ body => body
  | forRange _ _ _ body => body
  | whileCond _ body _ => body

end Loop

namespace Expr

def isUnresolved : Expr → Bool
  | unresolved _ => true
  | _ => false

/-- The direct parts of an expression; the bodies of declarations inside it are not among them. -/
def children : Expr → List Expr
  | unresolved _ => []
  | const .. => []
  | var .. => []
  | block b => b.exprs
  | conditional c t f _ => [c, t, f]
  | instanceOf .. => []
  | logical _ l r _ => [l, r]
  | equality _ l r _ => [l, r]
  | comparison _ l r _ => [l, r]
  | arith _ l r _ _ => [l, r]
  | new _ args => args
  | field r _ _ => [r]
  | call r _ _ args _ _ => r.toList ++ args
  | funcRef r _ _ => r.toList
  | lambda l => [l.body]
  | array _ elems => elems
  | cast v _ => [v]
  | assign r _ v => r.toList ++ [v]
  | step .. => []
  | loop l => l.head ++ l.body.exprs
  | stringLength v _ => [v]
  | print v => [v]

end Expr

mutual

/-- The type of an expression's value; statements have none. A block has the type of its last
statement. -/
def Expr.ty? : Expr → Option Ty
  | .unresolved t => some t
  | .const _ t => some t
  | .var _ t => some t
  | .block ⟨stmts, _⟩ => Stmt.lastType? stmts
  | .conditional _ _ _ t => some t
  | .instanceOf _ _ t => some t
  | .logical _ _ _ t => some t
  | .equality _ _ _ t => some t
  | .comparison _ _ _ t => some t
  | .arith _ _ _ t _ => some t
  | .new t _ => some t
  | .field _ _ t => some t
  | .call _ _ _ _ t _ => some t
  | .funcRef _ _ t => some t
  | .lambda l => some (l.samTarget.getD l.signature)
  | .array t _ => some t
  | .cast _ t => some t
  | .assign .. => none
  | .step .. => none
  | .loop _ => none
  | .stringLength _ t => some t
  | .print _ => none

def Stmt.lastType? : List Stmt → Option Ty
  | [] => none
  | [.expr e] => e.ty?
  | [.decl _] => none
  | _ :: s :: rest => Stmt.lastType? (s :: rest)

end

/-! ## Depth -/

mutual

/-- The number of nodes on the longest path into an expression. -/
def Expr.depth : Expr → Nat
  | .unresolved _ => 1
  | .const .. => 1
  | .var .. => 1
  | .block ⟨stmts, _⟩ => 1 + Stmt.maxDepth stmts
  | .conditional c t f _ => 1 + max c.depth (max t.depth f.depth)
  | .instanceOf .. => 1
  | .logical _ l r _ => 1 + max l.depth r.depth
  | .equality _ l r _ => 1 + max l.depth r.depth
  | .comparison _ l r _ => 1 + max l.depth r.depth
  | .arith _ l r _ _ => 1 + max l.depth r.depth
  | .new _ args => 1 + Expr.maxDepth args
  | .field r _ _ => 1 + r.depth
  | .call r _ _ args _ _ => 1 + max (Expr.optionDepth r) (Expr.maxDepth args)
  | .funcRef r _ _ => 1 + Expr.optionDepth r
  | .lambda ⟨_, _, _, body, _, _⟩ => 1 + body.depth
  | .array _ elems => 1 + Expr.maxDepth elems
  | .cast v _ => 1 + v.depth
  | .assign r _ v => 1 + max (Expr.optionDepth r) v.depth
  | .step .. => 1
  | .loop (.forEach _ it ⟨stmts, _⟩) => 1 + max it.depth (Stmt.maxDepth stmts)
  | .loop (.forRange _ a b ⟨stmts, _⟩) => 1 + max a.depth (max b.depth (Stmt.maxDepth stmts))
  | .loop (.whileCond c ⟨stmts, _⟩ _) => 1 + max c.depth (Stmt.maxDepth stmts)
  | .stringLength v _ => 1 + v.depth
  | .print v => 1 + v.depth

def Expr.optionDepth : Option Expr → Nat
  | none => 0
  | some e => e.depth

def Expr.maxDepth : List Expr → Nat
  | [] => 0
  | e :: es => max e.depth (Expr.maxDepth es)

def Stmt.maxDepth : List Stmt → Nat
  | [] => 0
  | .expr e :: ss => max e.depth (Stmt.maxDepth ss)
  | .decl (.var ⟨_, _, init, _, _⟩) :: ss => max init.depth (Stmt.maxDepth ss)
  | .decl (.param _) :: ss => Stmt.maxDepth ss
  | .decl (.field _) :: ss => Stmt.maxDepth ss
  | .decl (.func _) :: ss => Stmt.maxDepth ss
  | .decl (.cls _) :: ss => Stmt.maxDepth ss
  | .decl (.lambda _) :: ss => Stmt.maxDepth ss

end

namespace Expr

theorem maxDepth_append (xs ys : List Expr) :
    maxDepth (xs ++ ys) = max (maxDepth xs) (maxDepth ys) := by
  induction xs with
  | nil => simp [maxDepth]
  | cons x xs ih => simp [maxDepth, ih, Nat.max_assoc]

theorem maxDepth_toList (r : Option Expr) : maxDepth r.toList = optionDepth r := by
  cases r <;> simp [maxDepth, optionDepth]

theorem maxDepth_exprs (b : Bool) (stmts : List Stmt) :
    maxDepth (Block.exprs ⟨stmts, b⟩) = Stmt.maxDepth stmts := by
  induction stmts with
  | nil => rfl
  | cons s ss ih =>
    simp only [Block.exprs] at ih
    cases s with
    | expr e => simp [Block.exprs, Stmt.expr?, maxDepth, Stmt.maxDepth, ih]
    | decl d =>
      cases d with
      | var v =>
        cases v
        simp [Block.exprs, List.filterMap, Stmt.expr?, maxDepth, Stmt.maxDepth, ih]
      | _ => simpa [Block.exprs, List.filterMap, Stmt.expr?, Stmt.maxDepth] using ih

/-- **An expression is one deeper than the deepest of its parts.** -/
theorem depth_eq (e : Expr) : e.depth = 1 + maxDepth e.children := by
  cases e with
  | block b => obtain ⟨stmts, f⟩ := b; simp [depth, children, maxDepth_exprs]
  | lambda l => cases l; simp [depth, children, maxDepth]
  | call r n ts args t v => simp [depth, children, maxDepth_append, maxDepth_toList]
  | assign r n v => simp [depth, children, maxDepth_append, maxDepth_toList, maxDepth]
  | funcRef r n t => simp [depth, children, maxDepth_toList]
  | loop l =>
    cases l with
    | forEach v i b =>
      obtain ⟨stmts, f⟩ := b
      simp [depth, children, Loop.head, Loop.body, maxDepth, maxDepth_exprs]
    | forRange v i j b =>
      obtain ⟨stmts, f⟩ := b
      simp [depth, children, Loop.head, Loop.body, maxDepth, maxDepth_exprs]
    | whileCond c b d =>
      obtain ⟨stmts, f⟩ := b
      simp [depth, children, Loop.head, Loop.body, maxDepth, maxDepth_exprs]
  | _ => simp [depth, children, maxDepth]

end Expr

end ProgramGen

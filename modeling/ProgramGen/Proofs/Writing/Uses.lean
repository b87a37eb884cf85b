import ProgramGen.Emit.Source
import ProgramGen.Proofs.Program.Narrowing

/-!
# What uses function types in Java

A function type has an interface for its number of parameters. The uses of a tree are collected here as
they come in its text: the types that are written, the variables that are cast where a test narrows
them, and the closures, references and functions inside bodies that are values of function types.
-/

namespace ProgramGen

namespace Java

/-- Something in a program that may need function interfaces. -/
inductive Use where
  /-- A type that is written. -/
  | type (t : Ty)
  /-- A type that is written without its arguments. -/
  | erased (t : Ty)
  /-- The function type of a closure or of a reference to a function, which is not written. -/
  | signature (t : Ty)
  /-- A function inside a body: a variable of the function type for its number of parameters. -/
  | nested (arity : Nat)

/-- The numbers of parameters that the emitter notes at a use. -/
def Use.arities : Use → List Nat
  | .type t => Java.arities t
  | .erased (.applied c args) => if isArray c then Java.arities (.applied c args) else ownArity c args
  | .erased t => Java.arities t
  | .signature t => Java.arities t
  | .nested n => [n]

/-- The type of the elements of an array or list. -/
def elementType (t : Ty) : Ty := t.args.head?.getD Language.java.anyType

end Java

open Java (Use)

/-- A variable is cast to what it is narrowed to. -/
def Narrowings.uses (γ : Narrowings) (name : String) : List Use :=
  match γ.find? (·.1 == name) with
  | some (_, target) => [.type target]
  | none => []

/-- Of a type parameter the bound is a type that is written. -/
def TypeParam.uses (p : TypeParam) : List Use := p.bound.toList.map .type

def ParamDecl.uses (p : ParamDecl) : Use := .type p.ty

mutual

/-- The uses in an expression that stands under tests. -/
def Expr.uses (γ : Narrowings) : Expr → List Use
  | .unresolved t => [.type t]
  | .const _ _ => []
  | .var name _ => γ.uses name
  | .block ⟨ss, _⟩ => Stmt.allUses γ ss
  | .conditional c t f _ => c.uses γ ++ (t.uses (c.narrowing ++ γ) ++ f.uses γ)
  | .instanceOf _ target _ => [.erased target]
  | .logical _ l r _ => l.uses γ ++ r.uses γ
  | .equality _ l r _ => l.uses γ ++ r.uses γ
  | .comparison _ l r _ => l.uses γ ++ r.uses γ
  | .arith _ l r _ _ => l.uses γ ++ r.uses γ
  | .new t args => .type t :: Expr.allUses γ args
  | .field r _ _ => r.uses γ
  | .call r name typeArgs args _ ofValue =>
    Expr.allUses γ args ++
      if ofValue then γ.uses name else typeArgs.map .type ++ Expr.optionUses γ r
  | .funcRef r _ signature => Expr.optionUses γ r ++ [.signature signature]
  | .lambda l => l.uses γ
  | .array t elems => Expr.allUses γ elems ++ [.type (Java.elementType t)]
  | .cast v t => .type t :: v.uses γ
  | .assign r _ v => v.uses γ ++ Expr.optionUses γ r
  | .step _ _ => []
  | .loop l => l.uses γ
  | .stringLength v _ => v.uses γ
  | .print v => v.uses γ

def Expr.optionUses (γ : Narrowings) : Option Expr → List Use
  | none => []
  | some e => e.uses γ

def Expr.allUses (γ : Narrowings) : List Expr → List Use
  | [] => []
  | e :: es => e.uses γ ++ Expr.allUses γ es

def Stmt.uses (γ : Narrowings) : Stmt → List Use
  | .decl d => d.uses γ
  | .expr e => e.uses γ

def Stmt.allUses (γ : Narrowings) : List Stmt → List Use
  | [] => []
  | s :: ss => s.uses γ ++ Stmt.allUses γ ss

def Loop.uses (γ : Narrowings) : Loop → List Use
  | .forEach _ iterable ⟨ss, _⟩ =>
    .type ((iterable.ty?.bind fun t => t.args.head?).getD Language.java.anyType) ::
      (iterable.uses γ ++ Stmt.allUses γ ss)
  | .forRange _ start stop ⟨ss, _⟩ => start.uses γ ++ (stop.uses γ ++ Stmt.allUses γ ss)
  | .whileCond cond ⟨ss, _⟩ _ => cond.uses γ ++ Stmt.allUses γ ss

/-- A closure that implements an interface of the program is no value of a function type. -/
def LambdaDecl.uses (γ : Narrowings) : LambdaDecl → List Use
  | ⟨_, params, _, body, signature, sam⟩ =>
    params.map ParamDecl.uses ++ ((if sam.isNone then [.signature signature] else []) ++ body.uses γ)

/-- A function inside a body; its type parameters are not written. -/
def FuncDecl.nestedUses (γ : Narrowings) : FuncDecl → List Use
  | ⟨_, params, ret, body, _, _, _, _⟩ =>
    .nested params.length :: .type ret :: (params.map ParamDecl.uses ++ Expr.optionUses γ body)

/-- A top-level function or a method. -/
def FuncDecl.uses (γ : Narrowings) : FuncDecl → List Use
  | ⟨_, params, ret, body, _, typeParams, _, _⟩ =>
    (typeParams.flatMap TypeParam.uses ++ .type ret :: params.map ParamDecl.uses) ++ Expr.optionUses γ body

def FuncDecl.allUses (γ : Narrowings) : List FuncDecl → List Use
  | [] => []
  | f :: fs => f.uses γ ++ FuncDecl.allUses γ fs

/-- Arguments for constructors are among the uses whether or not the class has a place for them. -/
def SuperDecl.allUses (γ : Narrowings) : List SuperDecl → List Use
  | [] => []
  | ⟨t, none⟩ :: rest => .type t :: SuperDecl.allUses γ rest
  | ⟨t, some args⟩ :: rest => .type t :: (Expr.allUses γ args ++ SuperDecl.allUses γ rest)

def ClassDecl.uses (γ : Narrowings) : ClassDecl → List Use
  | ⟨_, _, typeParams, supers, fields, funcs, _⟩ =>
    typeParams.flatMap TypeParam.uses ++ (SuperDecl.allUses γ supers ++
      (fields.map (fun f => .type f.ty) ++ FuncDecl.allUses γ funcs))

/-- A declaration inside a body. The type of a variable is left out where it can be. -/
def Decl.uses (γ : Narrowings) : Decl → List Use
  | .var ⟨_, t, init, _, inferred⟩ =>
    (if inferred && !t.isBuiltin then [] else [.type t]) ++ init.uses γ
  | .func f => f.nestedUses γ
  | .cls c => c.uses γ
  | .param _ => []
  | .field _ => []
  | .lambda _ => []

end

/-- A top-level declaration. -/
def Decl.memberUses (γ : Narrowings) : Decl → List Use
  | .var v => .type v.ty :: v.init.uses γ
  | .func f => f.uses γ
  | .cls c => c.uses γ
  | .param _ => []
  | .field _ => []
  | .lambda _ => []

/-- The declarations of a program that are written; closures are written where they stand. -/
def Program.members (p : Program) : List Decl := p.topLevel.filter fun d => d.kind != .lambda

/-- The uses in the text of a program. -/
def Program.uses (p : Program) : List Use := p.members.flatMap (Decl.memberUses [])

end ProgramGen

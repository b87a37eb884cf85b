import Std.Data.HashMap
import ProgramGen.Error
import ProgramGen.Syntax.Basic

/-!
# The symbol table

Declarations and type parameters by the scope that binds them. A scope keeps what it binds in order
of registration and binds a name once for each kind: variables (with parameters and fields),
functions, classes, and closures. What is visible from a scope are the bindings of all scopes that
enclose it; an inner binding takes the place of an outer one of the same kind and name.
-/

namespace ProgramGen

/-- The kinds of declaration that have names of their own. -/
inductive DeclKind where
  | var
  | func
  | cls
  | lambda
  deriving DecidableEq, Repr

/-- Parameters and fields share their names with variables. -/
def Decl.kind : Decl → DeclKind
  | .var _ => .var
  | .param _ => .var
  | .field _ => .var
  | .func _ => .func
  | .cls _ => .cls
  | .lambda _ => .lambda

/-- What one scope binds, in order of registration. -/
structure Bindings where
  decls : List Decl
  types : List TypeParam

namespace Bindings

def empty : Bindings := ⟨[], []⟩

instance : Inhabited Bindings := ⟨empty⟩

/-- Whether a declaration has the given kind and name. -/
def isNamed (k : DeclKind) (name : String) (d : Decl) : Bool := d.kind == k && d.name == name

def binds (b : Bindings) (k : DeclKind) (name : String) : Bool := b.decls.any (isNamed k name)

end Bindings

/-- The bindings of all scopes. -/
structure Context where
  scopes : Std.HashMap Namespace Bindings

namespace Context

def empty : Context := ⟨∅⟩

instance : Inhabited Context := ⟨empty⟩

/-- What a scope binds. -/
def scope (c : Context) (ns : Namespace) : Bindings := c.scopes.getD ns .empty

/-- Put new bindings in place of those of one scope. -/
def set (c : Context) (ns : Namespace) (b : Bindings) : Context := ⟨c.scopes.insert ns b⟩

/-! ## Registration -/

/-- Register a declaration in a scope that has none of that kind and name. -/
def add (c : Context) (ns : Namespace) (d : Decl) : Except GenError Context :=
  let b := c.scope ns
  if b.binds d.kind d.name then .error (.alreadyBound d.name ns)
  else .ok (c.set ns { b with decls := b.decls ++ [d] })

/-- Register a variable, parameter or field. -/
def addVar (c : Context) (ns : Namespace) (d : Decl) : Except GenError Context :=
  if d.kind = .var then c.add ns d else .error (.notVariable d.name)

/-- Register a type parameter in a scope that has none of that name. -/
def addType (c : Context) (ns : Namespace) (p : TypeParam) : Except GenError Context :=
  let b := c.scope ns
  if b.types.any (·.name == p.name) then .error (.typeAlreadyBound p.name ns)
  else .ok (c.set ns { b with types := b.types ++ [p] })

/-! ## Look-up -/

/-- Add `x` to a list, in the place of the element that has its name if there is one. -/
def overlay {α : Type} (name : α → String) : List α → α → List α
  | [], x => [x]
  | y :: ys, x => if name y = name x then x :: ys else y :: overlay name ys x

/-- The declarations of one kind that a scope binds itself. -/
def own (c : Context) (k : DeclKind) (ns : Namespace) : List Decl :=
  (c.scope ns).decls.filter (·.kind == k)

/-- The declarations of one kind that are visible from a scope, in the order in which their names
are first bound from the outside in. -/
def visible (c : Context) (k : DeclKind) (ns : Namespace) : List Decl :=
  ns.lineage.foldl (fun out s => (c.own k s).foldl (overlay Decl.name) out) []

/-- Visible or own declarations. -/
def decls (c : Context) (k : DeclKind) (ns : Namespace) (outer : Bool) : List Decl :=
  if outer then c.visible k ns else c.own k ns

/-- The variables, parameters and fields of a scope; with `outer`, all that are visible. -/
def vars (c : Context) (ns : Namespace) (outer : Bool) : List Decl := c.decls .var ns outer

def funcs (c : Context) (ns : Namespace) (outer : Bool) : List FuncDecl :=
  (c.decls .func ns outer).filterMap fun | .func f => some f | _ => none

def classes (c : Context) (ns : Namespace) (outer : Bool) : List ClassDecl :=
  (c.decls .cls ns outer).filterMap fun | .cls d => some d | _ => none

def lambdas (c : Context) (ns : Namespace) (outer : Bool) : List LambdaDecl :=
  (c.decls .lambda ns outer).filterMap fun | .lambda l => some l | _ => none

def var? (c : Context) (ns : Namespace) (name : String) (outer : Bool) : Option Decl :=
  (c.vars ns outer).find? (·.name == name)

def func? (c : Context) (ns : Namespace) (name : String) (outer : Bool) : Option FuncDecl :=
  (c.funcs ns outer).find? (·.name == name)

def class? (c : Context) (ns : Namespace) (name : String) (outer : Bool) : Option ClassDecl :=
  (c.classes ns outer).find? (·.name == name)

/-- A class of the global scope. -/
def globalClass? (c : Context) (name : String) : Option ClassDecl := c.class? .global name true

/-- The visible variables, each with the scope that binds it. -/
def scopedVars (c : Context) (ns : Namespace) : List (Namespace × Decl) :=
  ns.lineage.foldl
    (fun out s => ((c.own .var s).map (s, ·)).foldl (overlay (·.2.name)) out) []

/-- The type parameters of a scope; with `outer`, all that are visible. -/
def types (c : Context) (ns : Namespace) (outer : Bool) : List TypeParam :=
  -- The own types are laid over nothing, and none of them over another: a scope binds a name once.
  (if outer then ns.lineage else [ns]).foldl
    (fun out s => (c.scope s).types.foldl (overlay TypeParam.name) out) []

/-- What a scope declares, in order of registration. -/
def declarations (c : Context) (ns : Namespace) : List Decl := (c.scope ns).decls

/-- All that is visible from a scope, kind by kind. -/
def visibleDeclarations (c : Context) (ns : Namespace) : List Decl :=
  c.visible .var ns ++ c.visible .func ns ++ c.visible .cls ns ++ c.visible .lambda ns

/-- The declarations of the program's top level. -/
def topLevel (c : Context) : List Decl := c.declarations .global

/-! ## Removal and change -/

/-- Remove a variable from the scope that binds it. -/
def removeVar (c : Context) (ns : Namespace) (name : String) : Context :=
  let b := c.scope ns
  c.set ns { b with decls := b.decls.eraseP (Bindings.isNamed .var name) }

/-- Remove a type parameter from the scope that binds it. -/
def removeType (c : Context) (ns : Namespace) (name : String) : Context :=
  let b := c.scope ns
  c.set ns { b with types := b.types.eraseP (·.name == name) }

/-- Drop a scope and all scopes inside it. -/
def removeNamespace (c : Context) (ns : Namespace) : Context :=
  ⟨c.scopes.filter fun scope _ => !scope.isWithin ns⟩

/-- Change the first element that satisfies `p`. -/
def modifyFirst {α : Type} (p : α → Bool) (f : α → α) : List α → List α
  | [] => []
  | x :: xs => if p x then f x :: xs else x :: modifyFirst p f xs

/-- Change one declaration where it is bound. -/
def modify (c : Context) (ns : Namespace) (k : DeclKind) (name : String) (f : Decl → Decl) :
    Context :=
  let b := c.scope ns
  c.set ns { b with decls := modifyFirst (Bindings.isNamed k name) f b.decls }

def modifyFunc (c : Context) (ns : Namespace) (name : String) (f : FuncDecl → FuncDecl) :
    Context :=
  c.modify ns .func name fun | .func d => .func (f d) | d => d

def modifyClass (c : Context) (ns : Namespace) (name : String) (f : ClassDecl → ClassDecl) :
    Context :=
  c.modify ns .cls name fun | .cls d => .cls (f d) | d => d

/-- Make a variable changeable, or final. -/
def setFinal (c : Context) (ns : Namespace) (name : String) (isFinal : Bool) : Context :=
  c.modify ns .var name fun | .var v => .var { v with isFinal := isFinal } | d => d

end Context

end ProgramGen

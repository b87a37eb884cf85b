import ProgramGen.Synthesis.Program

/-!
# Narrowed variables

A conditional on a type test narrows the tested variable in its true branch, and only there: closures,
loops and declarations in the branch see the variable narrowed, the other branch does not, and of two
tests of one variable the inner one counts. Where a language has no smart casts, the same program is
the one that has each use of a narrowed variable cast by hand.
-/

namespace ProgramGen

/-- What the tests around a place narrow variables to, innermost test first. -/
abbrev Narrowings := List (String × Ty)

/-- A use of a variable, cast to what it is narrowed to. -/
def Narrowings.use (γ : Narrowings) (name : String) (t : Ty) : Expr :=
  match γ.find? (·.1 == name) with
  | some (_, target) => .cast (.const name t) target
  | none => .const name t

/-- What a condition narrows where it holds. -/
def Expr.narrowing : Expr → Narrowings
  | .instanceOf x target _ => [(x, target)]
  | _ => []

mutual

/-- An expression under tests, with the casts written out. -/
def Expr.withCasts (γ : Narrowings) : Expr → Expr
  | .unresolved t => .unresolved t
  | .const literal t => .const literal t
  | .var name t => γ.use name t
  | .block b => .block (b.withCasts γ)
  | .conditional c t f ty =>
    .conditional (c.withCasts γ) (t.withCasts (c.narrowing ++ γ)) (f.withCasts γ) ty
  | .instanceOf x target t => .instanceOf x target t
  | .logical op l r t => .logical op (l.withCasts γ) (r.withCasts γ) t
  | .equality op l r t => .equality op (l.withCasts γ) (r.withCasts γ) t
  | .comparison op l r t => .comparison op (l.withCasts γ) (r.withCasts γ) t
  | .arith op l r t cast => .arith op (l.withCasts γ) (r.withCasts γ) t cast
  | .new t args => .new t (Expr.allWithCasts γ args)
  | .field r name t => .field (r.withCasts γ) name t
  | .call r name typeArgs args ret ofValue =>
    .call (Expr.optionWithCasts γ r) name typeArgs (Expr.allWithCasts γ args) ret ofValue
  | .funcRef r name signature => .funcRef (Expr.optionWithCasts γ r) name signature
  | .lambda l => .lambda (l.withCasts γ)
  | .array t elems => .array t (Expr.allWithCasts γ elems)
  | .cast v t => .cast (v.withCasts γ) t
  | .assign r name v => .assign (Expr.optionWithCasts γ r) name (v.withCasts γ)
  | .step name op => .step name op
  | .loop l => .loop (l.withCasts γ)
  | .stringLength v t => .stringLength (v.withCasts γ) t
  | .print v => .print (v.withCasts γ)

def Expr.optionWithCasts (γ : Narrowings) : Option Expr → Option Expr
  | none => none
  | some e => some (e.withCasts γ)

def Expr.allWithCasts (γ : Narrowings) : List Expr → List Expr
  | [] => []
  | e :: es => e.withCasts γ :: Expr.allWithCasts γ es

def Block.withCasts (γ : Narrowings) : Block → Block
  | ⟨ss, isFuncBody⟩ => ⟨Stmt.allWithCasts γ ss, isFuncBody⟩

def Stmt.withCasts (γ : Narrowings) : Stmt → Stmt
  | .decl d => .decl (d.withCasts γ)
  | .expr e => .expr (e.withCasts γ)

def Stmt.allWithCasts (γ : Narrowings) : List Stmt → List Stmt
  | [] => []
  | s :: ss => s.withCasts γ :: Stmt.allWithCasts γ ss

/-- A loop under tests. The variable of a loop has its type from what the loop runs through, which is left
as it is where a cast could change its type. -/
def Loop.withCasts (γ : Narrowings) : Loop → Loop
  | .forEach x iterable body =>
    .forEach x (match iterable with
      | .var name t => .var name t
      | .block b => .block b
      | e => e.withCasts γ) (body.withCasts γ)
  | .forRange x start stop body => .forRange x (start.withCasts γ) (stop.withCasts γ) (body.withCasts γ)
  | .whileCond cond body bodyFirst => .whileCond (cond.withCasts γ) (body.withCasts γ) bodyFirst

def LambdaDecl.withCasts (γ : Narrowings) : LambdaDecl → LambdaDecl
  | ⟨name, params, ret, body, signature, samTarget⟩ =>
    ⟨name, params, ret, body.withCasts γ, signature, samTarget⟩

def FuncDecl.withCasts (γ : Narrowings) : FuncDecl → FuncDecl
  | ⟨name, params, ret, body, kind, typeParams, isFinal, isOverride⟩ =>
    ⟨name, params, ret, Expr.optionWithCasts γ body, kind, typeParams, isFinal, isOverride⟩

def FuncDecl.allWithCasts (γ : Narrowings) : List FuncDecl → List FuncDecl
  | [] => []
  | f :: fs => f.withCasts γ :: FuncDecl.allWithCasts γ fs

def SuperDecl.allWithCasts (γ : Narrowings) : List SuperDecl → List SuperDecl
  | [] => []
  | ⟨t, none⟩ :: rest => ⟨t, none⟩ :: SuperDecl.allWithCasts γ rest
  | ⟨t, some args⟩ :: rest => ⟨t, some (Expr.allWithCasts γ args)⟩ :: SuperDecl.allWithCasts γ rest

def ClassDecl.withCasts (γ : Narrowings) : ClassDecl → ClassDecl
  | ⟨name, kind, typeParams, supers, fields, funcs, isFinal⟩ =>
    ⟨name, kind, typeParams, SuperDecl.allWithCasts γ supers, fields, FuncDecl.allWithCasts γ funcs, isFinal⟩

def Decl.withCasts (γ : Narrowings) : Decl → Decl
  | .var ⟨name, t, init, isFinal, inferred⟩ => .var ⟨name, t, init.withCasts γ, isFinal, inferred⟩
  | .param p => .param p
  | .field f => .field f
  | .func f => .func (f.withCasts γ)
  | .cls c => .cls (c.withCasts γ)
  | .lambda l => .lambda (l.withCasts γ)

end

/-- Of two tests of a variable the inner one counts, and where it fails the outer one. -/
example (a b t u : Ty) :
    (Expr.conditional (.instanceOf "x" a t)
        (.conditional (.instanceOf "x" b t) (.var "x" b) (.var "x" a) u) (.var "x" u) u).withCasts [] =
      .conditional (.instanceOf "x" a t)
        (.conditional (.instanceOf "x" b t) (.cast (.const "x" b) b) (.cast (.const "x" a) a) u)
        (.const "x" u) u := rfl

/-- A program with the casts written out. -/
def Program.withCasts (p : Program) : Program :=
  let top := p.context.scope .global
  ⟨p.language, p.context.set .global { top with decls := top.decls.map (Decl.withCasts []) }⟩

end ProgramGen

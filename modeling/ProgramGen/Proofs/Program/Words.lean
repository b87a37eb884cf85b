import ProgramGen.Proofs.Program.Access

/-!
# The words of a program

The names and literals that a program has, which its source text is put together from. A type has
the names that it is written with; those of its supertypes and of the bounds of its variables stand
where they are declared.
-/

namespace ProgramGen

mutual

/-- The names that a type is written with. -/
def Ty.names : Ty → List String
  | .builtin n _ _ _ _ => [n]
  | .simple n _ => [n]
  | .param p => [p.name]
  | .wildcard _ none => []
  | .wildcard _ (some b) => b.names
  | .constructor c => [c.name]
  | .applied c args => c.name :: Ty.namesOf args

def Ty.namesOf : List Ty → List String
  | [] => []
  | t :: ts => t.names ++ Ty.namesOf ts

end

theorem Ty.namesOf_eq (ts : List Ty) : Ty.namesOf ts = ts.flatMap Ty.names := by
  induction ts with
  | nil => rfl
  | cons t ts ih => simp [Ty.namesOf, ih]

/-! ## Declarations -/

/-- The names of a type parameter where it is declared. -/
def TypeParam.words (p : TypeParam) : List String := p.name :: p.bound.toList.flatMap Ty.names

def ParamDecl.words (p : ParamDecl) : List String := p.name :: p.ty.names

def FieldDecl.words (f : FieldDecl) : List String := f.name :: f.ty.names

def VarDecl.words (v : VarDecl) : List String := v.name :: v.ty.names

/-- The names in the header of a function. -/
def FuncDecl.words (f : FuncDecl) : List String :=
  f.name :: (f.params.flatMap ParamDecl.words ++ f.ret.names ++ f.typeParams.flatMap TypeParam.words)

def LambdaDecl.words (l : LambdaDecl) : List String :=
  l.params.flatMap ParamDecl.words ++ l.ret.names ++ l.signature.names ++ l.samTarget.toList.flatMap Ty.names

/-- The names in a class, apart from those in the bodies of its functions. -/
def ClassDecl.words (c : ClassDecl) : List String :=
  c.name :: (c.typeParams.flatMap TypeParam.words ++ c.supers.flatMap (·.ty.names) ++
    c.fields.flatMap FieldDecl.words ++ c.funcs.flatMap FuncDecl.words)

/-- The names in a declaration, apart from those in the expressions in it. -/
def Decl.words : Decl → List String
  | .var v => v.words
  | .param p => p.words
  | .field f => f.words
  | .func f => f.words
  | .cls c => c.words
  | .lambda l => l.words

/-- The names in the declarations of a block. -/
def Block.words (b : Block) : List String :=
  b.stmts.flatMap fun
    | .decl d => d.words
    | .expr _ => []

/-! ## Expressions -/

/-- The variable that a loop declares itself, and the names in the declarations of its body. -/
def Loop.words : Loop → List String
  | .forEach x _ body => x :: body.words
  | .forRange x _ _ body => x :: body.words
  | .whileCond _ body _ => body.words

/-- The names and the literal of an expression, apart from those in the expressions in it. -/
def Expr.words : Expr → List String
  | .unresolved t => t.names
  | .const literal t => literal :: t.names
  | .var n t => n :: t.names
  | .block b => b.words
  | .conditional _ _ _ t => t.names
  | .instanceOf x target t => x :: (target.names ++ t.names)
  | .logical _ _ _ t => t.names
  | .equality _ _ _ t => t.names
  | .comparison _ _ _ t => t.names
  | .arith _ _ _ t _ => t.names
  | .new t _ => t.names
  | .field _ n t => n :: t.names
  | .call _ n typeArgs _ ret _ => n :: (typeArgs.flatMap Ty.names ++ ret.names)
  | .funcRef _ n signature => n :: signature.names
  | .lambda l => l.words
  | .array t _ => t.names
  | .cast _ t => t.names
  | .assign _ n _ => [n]
  | .step n _ => [n]
  | .loop l => l.words
  | .stringLength _ t => t.names
  | .print _ => []

/-- The names and literals of a program. -/
inductive Program.Spells (p : Program) : String → Prop where
  | decl {d w} (hd : d ∈ p.topLevel) (hw : w ∈ d.words) : Spells p w
  | expr {v e w} (he : p.Contains v e) (hw : w ∈ e.words) : Spells p w

end ProgramGen

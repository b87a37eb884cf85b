import ProgramGen.Syntax.Basic

/-!
# Equality of trees

Two trees are equal when they agree in every field, types included. The test descends into both at
once; it decides equality.
-/

namespace ProgramGen

mutual

/-- Equality of expressions as values. -/
def Expr.eqb : Expr → Expr → Bool
  | .unresolved t, e => match e with | .unresolved t' => t == t' | _ => false
  | .const s t, e => match e with | .const s' t' => s == s' && t == t' | _ => false
  | .var n t, e => match e with | .var n' t' => n == n' && t == t' | _ => false
  | .block b, e => match e with | .block b' => Block.eqb b b' | _ => false
  | .conditional c x y t, e =>
    match e with
    | .conditional c' x' y' t' => Expr.eqb c c' && Expr.eqb x x' && Expr.eqb y y' && t == t'
    | _ => false
  | .instanceOf v s t, e =>
    match e with
    | .instanceOf v' s' t' => v == v' && s == s' && t == t'
    | _ => false
  | .logical o x y t, e =>
    match e with
    | .logical o' x' y' t' => o == o' && Expr.eqb x x' && Expr.eqb y y' && t == t'
    | _ => false
  | .equality o x y t, e =>
    match e with
    | .equality o' x' y' t' => o == o' && Expr.eqb x x' && Expr.eqb y y' && t == t'
    | _ => false
  | .comparison o x y t, e =>
    match e with
    | .comparison o' x' y' t' => o == o' && Expr.eqb x x' && Expr.eqb y y' && t == t'
    | _ => false
  | .arith o x y t c, e =>
    match e with
    | .arith o' x' y' t' c' => o == o' && Expr.eqb x x' && Expr.eqb y y' && t == t' && c == c'
    | _ => false
  | .new t xs, e => match e with | .new t' xs' => t == t' && Expr.eqbList xs xs' | _ => false
  | .field r n t, e =>
    match e with
    | .field r' n' t' => Expr.eqb r r' && n == n' && t == t'
    | _ => false
  | .call r n ts xs t v, e =>
    match e with
    | .call r' n' ts' xs' t' v' =>
      Expr.eqbOption r r' && n == n' && ts == ts' && Expr.eqbList xs xs' && t == t' && v == v'
    | _ => false
  | .funcRef r n t, e =>
    match e with
    | .funcRef r' n' t' => Expr.eqbOption r r' && n == n' && t == t'
    | _ => false
  | .lambda l, e => match e with | .lambda l' => LambdaDecl.eqb l l' | _ => false
  | .array t es, e => match e with | .array t' es' => t == t' && Expr.eqbList es es' | _ => false
  | .cast x t, e => match e with | .cast x' t' => Expr.eqb x x' && t == t' | _ => false
  | .assign r n x, e =>
    match e with
    | .assign r' n' x' => Expr.eqbOption r r' && n == n' && Expr.eqb x x'
    | _ => false
  | .step n o, e => match e with | .step n' o' => n == n' && o == o' | _ => false
  | .loop l, e => match e with | .loop l' => Loop.eqb l l' | _ => false
  | .stringLength x t, e =>
    match e with
    | .stringLength x' t' => Expr.eqb x x' && t == t'
    | _ => false
  | .print x, e => match e with | .print x' => Expr.eqb x x' | _ => false

def Expr.eqbOption : Option Expr → Option Expr → Bool
  | none, none => true
  | some e, some e' => Expr.eqb e e'
  | _, _ => false

def Expr.eqbList : List Expr → List Expr → Bool
  | [], [] => true
  | e :: es, e' :: es' => Expr.eqb e e' && Expr.eqbList es es'
  | _, _ => false

def Block.eqb : Block → Block → Bool
  | ⟨ss, f⟩, ⟨ss', f'⟩ => Stmt.eqbList ss ss' && f == f'

def Stmt.eqb : Stmt → Stmt → Bool
  | .decl d, .decl d' => Decl.eqb d d'
  | .expr e, .expr e' => Expr.eqb e e'
  | _, _ => false

def Stmt.eqbList : List Stmt → List Stmt → Bool
  | [], [] => true
  | s :: ss, s' :: ss' => Stmt.eqb s s' && Stmt.eqbList ss ss'
  | _, _ => false

def Loop.eqb : Loop → Loop → Bool
  | .forEach v i b, .forEach v' i' b' => v == v' && Expr.eqb i i' && Block.eqb b b'
  | .forRange v i j b, .forRange v' i' j' b' =>
    v == v' && Expr.eqb i i' && Expr.eqb j j' && Block.eqb b b'
  | .whileCond c b f, .whileCond c' b' f' => Expr.eqb c c' && Block.eqb b b' && f == f'
  | _, _ => false

/-- Equality of declarations as values. -/
def Decl.eqb : Decl → Decl → Bool
  | .var v, .var v' => VarDecl.eqb v v'
  | .param p, .param p' => ParamDecl.eqb p p'
  | .field f, .field f' => f == f'
  | .func f, .func f' => FuncDecl.eqb f f'
  | .cls c, .cls c' => ClassDecl.eqb c c'
  | .lambda l, .lambda l' => LambdaDecl.eqb l l'
  | _, _ => false

def VarDecl.eqb : VarDecl → VarDecl → Bool
  | ⟨n, t, x, f, i⟩, ⟨n', t', x', f', i'⟩ =>
    n == n' && t == t' && Expr.eqb x x' && f == f' && i == i'

def ParamDecl.eqb : ParamDecl → ParamDecl → Bool
  | ⟨n, t, d⟩, ⟨n', t', d'⟩ => n == n' && t == t' && Expr.eqbOption d d'

def ParamDecl.eqbList : List ParamDecl → List ParamDecl → Bool
  | [], [] => true
  | p :: ps, p' :: ps' => ParamDecl.eqb p p' && ParamDecl.eqbList ps ps'
  | _, _ => false

def FuncDecl.eqb : FuncDecl → FuncDecl → Bool
  | ⟨n, ps, r, b, k, ts, f, o⟩, ⟨n', ps', r', b', k', ts', f', o'⟩ =>
    n == n' && ParamDecl.eqbList ps ps' && r == r' && Expr.eqbOption b b' && k == k' &&
      ts == ts' && f == f' && o == o'

def FuncDecl.eqbList : List FuncDecl → List FuncDecl → Bool
  | [], [] => true
  | f :: fs, f' :: fs' => FuncDecl.eqb f f' && FuncDecl.eqbList fs fs'
  | _, _ => false

def ClassDecl.eqb : ClassDecl → ClassDecl → Bool
  | ⟨n, k, ts, ss, fs, ms, f⟩, ⟨n', k', ts', ss', fs', ms', f'⟩ =>
    n == n' && k == k' && ts == ts' && SuperDecl.eqbList ss ss' && fs == fs' &&
      FuncDecl.eqbList ms ms' && f == f'

def SuperDecl.eqb : SuperDecl → SuperDecl → Bool
  | ⟨t, none⟩, ⟨t', none⟩ => t == t'
  | ⟨t, some xs⟩, ⟨t', some xs'⟩ => t == t' && Expr.eqbList xs xs'
  | _, _ => false

def SuperDecl.eqbList : List SuperDecl → List SuperDecl → Bool
  | [], [] => true
  | s :: ss, s' :: ss' => SuperDecl.eqb s s' && SuperDecl.eqbList ss ss'
  | _, _ => false

def LambdaDecl.eqb : LambdaDecl → LambdaDecl → Bool
  | ⟨n, ps, r, b, s, t⟩, ⟨n', ps', r', b', s', t'⟩ =>
    n == n' && ParamDecl.eqbList ps ps' && r == r' && Expr.eqb b b' && s == s' && t == t'

end

mutual

theorem Expr.eqb_iff : ∀ a b : Expr, Expr.eqb a b = true ↔ a = b
  | .unresolved _, b => by cases b <;> simp [Expr.eqb]
  | .const .., b => by cases b <;> simp [Expr.eqb]
  | .var .., b => by cases b <;> simp [Expr.eqb]
  | .block c, b => by cases b <;> simp [Expr.eqb, Block.eqb_iff c]
  | .conditional c x y _, b => by
    cases b <;> simp [Expr.eqb, Expr.eqb_iff c, Expr.eqb_iff x, Expr.eqb_iff y, and_assoc]
  | .instanceOf .., b => by cases b <;> simp [Expr.eqb, and_assoc]
  | .logical _ x y _, b => by
    cases b <;> simp [Expr.eqb, Expr.eqb_iff x, Expr.eqb_iff y, and_assoc]
  | .equality _ x y _, b => by
    cases b <;> simp [Expr.eqb, Expr.eqb_iff x, Expr.eqb_iff y, and_assoc]
  | .comparison _ x y _, b => by
    cases b <;> simp [Expr.eqb, Expr.eqb_iff x, Expr.eqb_iff y, and_assoc]
  | .arith _ x y _ _, b => by
    cases b <;> simp [Expr.eqb, Expr.eqb_iff x, Expr.eqb_iff y, and_assoc]
  | .new _ xs, b => by cases b <;> simp [Expr.eqb, Expr.eqbList_iff xs]
  | .field r _ _, b => by cases b <;> simp [Expr.eqb, Expr.eqb_iff r, and_assoc]
  | .call r _ _ xs _ _, b => by
    cases b <;> simp [Expr.eqb, Expr.eqbOption_iff r, Expr.eqbList_iff xs, and_assoc]
  | .funcRef r _ _, b => by cases b <;> simp [Expr.eqb, Expr.eqbOption_iff r, and_assoc]
  | .lambda l, b => by cases b <;> simp [Expr.eqb, LambdaDecl.eqb_iff l]
  | .array _ xs, b => by cases b <;> simp [Expr.eqb, Expr.eqbList_iff xs]
  | .cast x _, b => by cases b <;> simp [Expr.eqb, Expr.eqb_iff x]
  | .assign r _ x, b => by
    cases b <;> simp [Expr.eqb, Expr.eqbOption_iff r, Expr.eqb_iff x, and_assoc]
  | .step .., b => by cases b <;> simp [Expr.eqb]
  | .loop l, b => by cases b <;> simp [Expr.eqb, Loop.eqb_iff l]
  | .stringLength x _, b => by cases b <;> simp [Expr.eqb, Expr.eqb_iff x]
  | .print x, b => by cases b <;> simp [Expr.eqb, Expr.eqb_iff x]

theorem Expr.eqbOption_iff : ∀ a b : Option Expr, Expr.eqbOption a b = true ↔ a = b
  | none, b => by cases b <;> simp [Expr.eqbOption]
  | some e, b => by cases b <;> simp [Expr.eqbOption, Expr.eqb_iff e]

theorem Expr.eqbList_iff : ∀ a b : List Expr, Expr.eqbList a b = true ↔ a = b
  | [], b => by cases b <;> simp [Expr.eqbList]
  | e :: es, b => by cases b <;> simp [Expr.eqbList, Expr.eqb_iff e, Expr.eqbList_iff es]

theorem Block.eqb_iff : ∀ a b : Block, Block.eqb a b = true ↔ a = b
  | ⟨ss, _⟩, ⟨_, _⟩ => by simp [Block.eqb, Stmt.eqbList_iff ss]

theorem Stmt.eqb_iff : ∀ a b : Stmt, Stmt.eqb a b = true ↔ a = b
  | .decl d, b => by cases b <;> simp [Stmt.eqb, Decl.eqb_iff d]
  | .expr e, b => by cases b <;> simp [Stmt.eqb, Expr.eqb_iff e]

theorem Stmt.eqbList_iff : ∀ a b : List Stmt, Stmt.eqbList a b = true ↔ a = b
  | [], b => by cases b <;> simp [Stmt.eqbList]
  | s :: ss, b => by cases b <;> simp [Stmt.eqbList, Stmt.eqb_iff s, Stmt.eqbList_iff ss]

theorem Loop.eqb_iff : ∀ a b : Loop, Loop.eqb a b = true ↔ a = b
  | .forEach _ i c, b => by
    cases b <;> simp [Loop.eqb, Expr.eqb_iff i, Block.eqb_iff c, and_assoc]
  | .forRange _ i j c, b => by
    cases b <;> simp [Loop.eqb, Expr.eqb_iff i, Expr.eqb_iff j, Block.eqb_iff c, and_assoc]
  | .whileCond x c _, b => by
    cases b <;> simp [Loop.eqb, Expr.eqb_iff x, Block.eqb_iff c, and_assoc]

theorem Decl.eqb_iff : ∀ a b : Decl, Decl.eqb a b = true ↔ a = b
  | .var v, b => by cases b <;> simp [Decl.eqb, VarDecl.eqb_iff v]
  | .param p, b => by cases b <;> simp [Decl.eqb, ParamDecl.eqb_iff p]
  | .field _, b => by cases b <;> simp [Decl.eqb]
  | .func f, b => by cases b <;> simp [Decl.eqb, FuncDecl.eqb_iff f]
  | .cls c, b => by cases b <;> simp [Decl.eqb, ClassDecl.eqb_iff c]
  | .lambda l, b => by cases b <;> simp [Decl.eqb, LambdaDecl.eqb_iff l]

theorem VarDecl.eqb_iff : ∀ a b : VarDecl, VarDecl.eqb a b = true ↔ a = b
  | ⟨_, _, x, _, _⟩, ⟨_, _, _, _, _⟩ => by simp [VarDecl.eqb, Expr.eqb_iff x, and_assoc]

theorem ParamDecl.eqb_iff : ∀ a b : ParamDecl, ParamDecl.eqb a b = true ↔ a = b
  | ⟨_, _, d⟩, ⟨_, _, _⟩ => by simp [ParamDecl.eqb, Expr.eqbOption_iff d, and_assoc]

theorem ParamDecl.eqbList_iff : ∀ a b : List ParamDecl, ParamDecl.eqbList a b = true ↔ a = b
  | [], b => by cases b <;> simp [ParamDecl.eqbList]
  | p :: ps, b => by
    cases b <;> simp [ParamDecl.eqbList, ParamDecl.eqb_iff p, ParamDecl.eqbList_iff ps]

theorem FuncDecl.eqb_iff : ∀ a b : FuncDecl, FuncDecl.eqb a b = true ↔ a = b
  | ⟨_, ps, _, b, _, _, _, _⟩, ⟨_, _, _, _, _, _, _, _⟩ => by
    simp [FuncDecl.eqb, ParamDecl.eqbList_iff ps, Expr.eqbOption_iff b, and_assoc]

theorem FuncDecl.eqbList_iff : ∀ a b : List FuncDecl, FuncDecl.eqbList a b = true ↔ a = b
  | [], b => by cases b <;> simp [FuncDecl.eqbList]
  | f :: fs, b => by
    cases b <;> simp [FuncDecl.eqbList, FuncDecl.eqb_iff f, FuncDecl.eqbList_iff fs]

theorem ClassDecl.eqb_iff : ∀ a b : ClassDecl, ClassDecl.eqb a b = true ↔ a = b
  | ⟨_, _, _, ss, _, ms, _⟩, ⟨_, _, _, _, _, _, _⟩ => by
    simp [ClassDecl.eqb, SuperDecl.eqbList_iff ss, FuncDecl.eqbList_iff ms, and_assoc]

theorem SuperDecl.eqb_iff : ∀ a b : SuperDecl, SuperDecl.eqb a b = true ↔ a = b
  | ⟨_, none⟩, ⟨_, b⟩ => by cases b <;> simp [SuperDecl.eqb]
  | ⟨_, some xs⟩, ⟨_, b⟩ => by cases b <;> simp [SuperDecl.eqb, Expr.eqbList_iff xs]

theorem SuperDecl.eqbList_iff : ∀ a b : List SuperDecl, SuperDecl.eqbList a b = true ↔ a = b
  | [], b => by cases b <;> simp [SuperDecl.eqbList]
  | s :: ss, b => by
    cases b <;> simp [SuperDecl.eqbList, SuperDecl.eqb_iff s, SuperDecl.eqbList_iff ss]

theorem LambdaDecl.eqb_iff : ∀ a b : LambdaDecl, LambdaDecl.eqb a b = true ↔ a = b
  | ⟨_, ps, _, x, _, _⟩, ⟨_, _, _, _, _, _⟩ => by
    simp [LambdaDecl.eqb, ParamDecl.eqbList_iff ps, Expr.eqb_iff x, and_assoc]

end

instance : DecidableEq Expr := fun a b => decidable_of_iff _ (Expr.eqb_iff a b)
instance : DecidableEq Block := fun a b => decidable_of_iff _ (Block.eqb_iff a b)
instance : DecidableEq Stmt := fun a b => decidable_of_iff _ (Stmt.eqb_iff a b)
instance : DecidableEq Loop := fun a b => decidable_of_iff _ (Loop.eqb_iff a b)
instance : DecidableEq Decl := fun a b => decidable_of_iff _ (Decl.eqb_iff a b)
instance : DecidableEq VarDecl := fun a b => decidable_of_iff _ (VarDecl.eqb_iff a b)
instance : DecidableEq ParamDecl := fun a b => decidable_of_iff _ (ParamDecl.eqb_iff a b)
instance : DecidableEq FuncDecl := fun a b => decidable_of_iff _ (FuncDecl.eqb_iff a b)
instance : DecidableEq ClassDecl := fun a b => decidable_of_iff _ (ClassDecl.eqb_iff a b)
instance : DecidableEq SuperDecl := fun a b => decidable_of_iff _ (SuperDecl.eqb_iff a b)
instance : DecidableEq LambdaDecl := fun a b => decidable_of_iff _ (LambdaDecl.eqb_iff a b)

end ProgramGen

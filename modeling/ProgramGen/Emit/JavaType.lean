import ProgramGen.Catalog.Basic
import ProgramGen.Emit.Page

/-!
# Types in Java

How a type is written in Java, and which function interfaces it needs. Type arguments are reference
types, so what is unboxed elsewhere is boxed there. An array type is written after its elements,
whose projections are dropped.
-/

namespace ProgramGen

namespace Java

/-- Whether a generic class is that of arrays. -/
def isArray (c : TypeCtor) : Bool := c.builtin && c.name == "Array"

/-- A type as an argument, given its text elsewhere. -/
def boxedText (t : Ty) (text : String) : String :=
  if t.isVoid then "Void"
  else
    match t with
    | .builtin _ k l true _ => l.builtinName k
    | _ => text

/-- The text of a generic type, from its arguments' texts as arguments and without projections. -/
def appliedText (c : TypeCtor) (texts exact : List String) : String :=
  match isArray c, exact with
  | true, elem :: _ => elem ++ "[]"
  | _, _ => c.name ++ "<" ++ commas texts ++ ">"

mutual

/-- The text of a type. -/
def typeText : Ty → String
  | .builtin n _ _ _ _ => n
  | .simple n _ => n
  | .param p => p.name
  | .wildcard _ none => "?"
  | .wildcard .contravariant (some b) => "? super " ++ boxedText b (typeText b)
  | .wildcard _ (some b) => "? extends " ++ boxedText b (typeText b)
  | .constructor c => c.name
  | .applied c args => appliedText c (argTexts args) (exactTexts args)

/-- The texts of type arguments. -/
def argTexts : List Ty → List String
  | [] => []
  | t :: ts => boxedText t (typeText t) :: argTexts ts

/-- The text of a type where no projection can stand: as an argument, with all wildcards replaced by
their bounds. -/
def exactText : Ty → String
  | .wildcard _ none => Language.java.builtinName .any
  | .wildcard _ (some b) => exactText b
  | .applied c args => appliedText c (exactTexts args) (exactTexts args)
  | .builtin n k l p s => boxedText (.builtin n k l p s) n
  | .simple n _ => n
  | .param p => p.name
  | .constructor c => c.name

def exactTexts : List Ty → List String
  | [] => []
  | t :: ts => exactText t :: exactTexts ts

end

/-- A type as an argument. -/
def argText (t : Ty) : String := boxedText t (typeText t)

/-- A type without its arguments, for a test at run time. -/
def rawText : Ty → String
  | .applied c args => if isArray c then typeText (.applied c args) else c.name
  | t => argText t

/-! ## Function interfaces -/

/-- The number of parameters of a generic type, if it is a function type. -/
def ownArity (c : TypeCtor) (args : List Ty) : List Nat :=
  if c.isFunction then [args.length - 1] else []

mutual

/-- The numbers of parameters of the function types that the text of a type mentions. -/
def arities : Ty → List Nat
  | .wildcard _ (some b) => arities b
  | .applied c (a :: as) =>
    -- Of the arguments of an array only the first is written.
    ownArity c (a :: as) ++ (arities a ++ if isArray c then [] else aritiesOf as)
  | .applied c [] => ownArity c []
  | .wildcard _ none => []
  | .builtin .. => []
  | .simple .. => []
  | .param _ => []
  | .constructor _ => []

def aritiesOf : List Ty → List Nat
  | [] => []
  | t :: ts => arities t ++ aritiesOf ts

end

/-- Insert into an ascending list without repetition. -/
def insertArity (n : Nat) : List Nat → List Nat
  | [] => [n]
  | m :: ms => if n < m then n :: m :: ms else if n = m then m :: ms else m :: insertArity n ms

/-- Note that function types are used. -/
def useArities (ns : List Nat) : Emit Unit :=
  modify fun p => { p with arities := ns.foldl (fun out n => insertArity n out) p.arities }

/-- Write a type. -/
def type (t : Ty) : Emit String := do
  useArities (arities t)
  return typeText t

/-- Write a type as an argument. -/
def typeArg (t : Ty) : Emit String := do
  useArities (arities t)
  return argText t

/-- Write a type where no projection can stand. -/
def exactType (t : Ty) : Emit String := do
  useArities (arities t)
  return exactText t

/-- Write a type without its arguments. -/
def rawType (t : Ty) : Emit String := do
  match t with
  -- What is not written needs no interface.
  | .applied c args => useArities (if isArray c then arities t else ownArity c args)
  | _ => useArities (arities t)
  return rawText t

/-- Write the type of a result. -/
def returnType (t : Ty) : Emit String := if t.isVoid then return "void" else type t

/-- Write a type parameter where it is declared. -/
def typeParam (p : TypeParam) : Emit String :=
  match p.bound with
  | some b => return p.name ++ " extends " ++ (← typeArg b)
  | none => return p.name

def typeParams (ps : List TypeParam) : Emit String := return inAngles (← ps.mapM typeParam)

/-- Write the type arguments of a call. -/
def callTypeArgs (ts : List Ty) : Emit String := return inAngles (← ts.mapM exactType)

end Java

end ProgramGen

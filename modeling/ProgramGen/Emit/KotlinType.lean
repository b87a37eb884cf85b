import ProgramGen.Emit.Page
import ProgramGen.Ty.Text

/-!
# Types in Kotlin

How a type is written in Kotlin. Function types have arrows, and arrays are written covariant, as
they are in the model of types.
-/

namespace ProgramGen

namespace Kotlin

/-- The text of a generic type, from the texts of its arguments. -/
def appliedText (c : TypeCtor) (args : List Ty) (texts : List String) : String :=
  match c.isFunction, texts.getLast? with
  | true, some ret => "(" ++ commas texts.dropLast ++ ") -> " ++ ret
  | _, _ =>
    match c.builtin && c.name == "Array", args, texts with
    | true, arg :: _, text :: _ =>
      -- Arrays are covariant in the model of types, and invariant in Kotlin.
      if arg.isWildcard then "Array<" ++ text ++ ">" else "Array<out " ++ text ++ ">"
    | _, _, _ => c.name ++ "<" ++ commas texts ++ ">"

mutual

/-- The text of a type. -/
def typeText : Ty → String
  | .builtin n _ _ _ _ => n
  | .simple n _ => n
  | .param p => p.name
  | .wildcard _ none => "*"
  | .wildcard .contravariant (some b) => "in " ++ typeText b
  | .wildcard .covariant (some b) => "out " ++ typeText b
  | .wildcard .invariant (some b) => typeText b
  | .constructor c => c.name ++ "<" ++ commas (c.params.map fun _ => "*") ++ ">"
  | .applied c args => appliedText c args (typeTexts args)

def typeTexts : List Ty → List String
  | [] => []
  | t :: ts => typeText t :: typeTexts ts

end

/-- The text of a type where no projection can stand. -/
def exactText : Ty → String
  | .wildcard _ (some b) => exactText b
  | .wildcard _ none => "Any"
  | .builtin n k l p s => typeText (.builtin n k l p s)
  | .simple n s => typeText (.simple n s)
  | .param p => typeText (.param p)
  | .constructor c => typeText (.constructor c)
  | .applied c args => typeText (.applied c args)

def typeParamText (p : TypeParam) : String :=
  match p.bound with
  | some b => p.variance.mark ++ p.name ++ " : " ++ typeText b
  | none => p.variance.mark ++ p.name

/-- The type parameters of a declaration. -/
def typeParamsText (ps : List TypeParam) : String := inAngles (ps.map typeParamText)

/-- The type arguments of a call. -/
def typeArgsText (ts : List Ty) : String := inAngles (ts.map exactText)

end Kotlin

end ProgramGen

import ProgramGen.Ty.Basic

/-!
# Types as text

The short text that messages and listings show for a type. A variable shows its name alone; as a
parameter of a generic class it shows its variance and bound too.
-/

namespace ProgramGen

/-- The words in front of a projected type. -/
def Variance.mark : Variance → String
  | invariant => ""
  | covariant => "out "
  | contravariant => "in "

mutual

/-- The text of a type. -/
def Ty.text : Ty → String
  | .builtin n _ _ _ _ => n
  | .simple n _ => n
  | .param p => p.name
  | .wildcard _ none => "*"
  | .wildcard v (some b) => v.mark ++ b.text
  | .constructor ⟨n, ps, _, _⟩ => n ++ "<" ++ ", ".intercalate (TypeParam.texts ps) ++ ">"
  | .applied c args => c.name ++ "<" ++ ", ".intercalate (Ty.texts args) ++ ">"

def Ty.texts : List Ty → List String
  | [] => []
  | t :: ts => t.text :: Ty.texts ts

/-- The text of a parameter where it is declared. -/
def TypeParam.text : TypeParam → String
  | ⟨n, v, none⟩ => v.mark ++ n
  | ⟨n, v, some b⟩ => v.mark ++ n ++ " : " ++ b.text

def TypeParam.texts : List TypeParam → List String
  | [] => []
  | p :: ps => p.text :: TypeParam.texts ps

end

theorem Ty.texts_eq (ts : List Ty) : Ty.texts ts = ts.map Ty.text := by
  induction ts with
  | nil => rfl
  | cons t ts ih => simp [Ty.texts, ih]

theorem TypeParam.texts_eq (ps : List TypeParam) : TypeParam.texts ps = ps.map TypeParam.text := by
  induction ps with
  | nil => rfl
  | cons p ps ih => simp [TypeParam.texts, ih]

end ProgramGen

/-!
# Target languages
-/

namespace ProgramGen

/-- A language that programs are written in. -/
inductive Language where
  | kotlin
  | java
  deriving DecidableEq, Repr, Inhabited

namespace Language

/-- The name by which a language is requested. -/
def name : Language → String
  | kotlin => "kotlin"
  | java => "java"

/-- The extension of a source file. -/
def extension : Language → String
  | kotlin => "kt"
  | java => "java"

/-- The language of a given name. -/
def ofName? : String → Option Language
  | "kotlin" => some kotlin
  | "java" => some java
  | _ => none

theorem ofName?_name (l : Language) : ofName? l.name = some l := by
  cases l <;> rfl

end Language

end ProgramGen

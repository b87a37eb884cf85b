import ProgramGen.Emit.Java
import ProgramGen.Emit.Kotlin
import ProgramGen.Synthesis.Program

/-!
# The source text of a program
-/

namespace ProgramGen

/-- Write the declarations of a program in its language. -/
def Program.emit (p : Program) (strict : Bool) : Emit Unit :=
  match p.language with
  | .kotlin => Kotlin.declarations ⟨strict, p.context⟩ p.topLevel
  | .java => Java.declarations strict p.topLevel

/-- The source text of a program. In strict use placeholders are refused; otherwise they become
expressions that fail when they are evaluated. -/
def Program.source (p : Program) (strict : Bool) : Except GenError String :=
  match (p.emit strict).runOn .blank with
  | (.ok _, page) => .ok page.out
  | (.error e, _) => .error e

end ProgramGen

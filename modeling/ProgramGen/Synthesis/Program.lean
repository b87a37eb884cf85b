import ProgramGen.Synthesis.Expression

/-!
# Programs

A program is a number of top-level declarations of random kinds, and an entry function.
-/

namespace ProgramGen

/-- A finished program; its declarations are in the symbol table. -/
structure Program where
  language : Language
  context : Context

/-- The declarations of a program, in order of generation. -/
def Program.topLevel (p : Program) : List Decl := p.context.topLevel

namespace Gen

/-- A top-level variable, class or function. -/
def genTopLevel (e : Engine) : Gen Unit := do
  let kind ← rand (Rand.uniform .i32 0 2)
  if kind = 0 then
    let _ ← genVariableDecl e none false none
  else if kind = 1 then
    let _ ← genClassDecl e {}
  else
    let _ ← genFuncDecl e {}

/-- The declarations of a program, and its entry function. -/
def genDeclarations (e : Engine) : Gen Unit := do
  let limits := (← get).config.limits
  let count ← sizeBetween limits.minTopLevel (max limits.maxTopLevel limits.minTopLevel)
  let _ ← times count (genTopLevel e)
  let _ ← genMain e

/-- Generate a program. -/
def genProgram : Gen Program := do
  genDeclarations (← get).config.engine
  let s ← get
  return ⟨s.language, s.context⟩

end Gen

/-- Generate a program with fresh state, and give back what is left of the source. -/
def Source.program (source : Source) (config : Config) (l : Language) :
    Except GenError Program × Source :=
  let (r, s) := Gen.genProgram.runIn (Session.start source config l)
  (r, s.source)

end ProgramGen

import ProgramGen.Config.Basic
import ProgramGen.Emit.Source

/-!
# The service

Answers requests for programs. A request names a language and a seed. The source of choices is kept
from one request to the next, but each request resets it, so that a program depends on its own
request alone.
-/

namespace ProgramGen

/-- What answers requests. -/
structure Service where
  config : Config
  /-- Programs with placeholders are refused. -/
  strict : Bool
  source : Source

/-- A program as text, and the request that it answers. -/
structure SourceText where
  language : Language
  seed : UInt64
  text : String
  deriving DecidableEq

namespace Service

/-- A service that has answered no request yet. -/
def new (config : Config) (strict : Bool) : Service := ⟨config, strict, .default⟩

/-- Answer a request, or tell why there is no program. -/
def tryGenerate (s : Service) (l : Language) (seed : UInt64) :
    Except GenError SourceText × Service :=
  let (program, source) := (s.source.reset seed l).program s.config l
  (do return ⟨l, seed, ← (← program).source s.strict⟩, { s with source := source })

/-- Answer a request if there is a program for it. -/
def generate (s : Service) (l : Language) (seed : UInt64) : Option SourceText × Service :=
  let (result, s) := s.tryGenerate l seed
  (result.toOption, s)

/-- A Kotlin program, and then a Java program from the same seed. -/
def generatePair (s : Service) (seed : UInt64) :
    (Option SourceText × Option SourceText) × Service :=
  let (kotlin, s) := s.generate .kotlin seed
  let (java, s) := s.generate .java seed
  ((kotlin, java), s)

end Service

end ProgramGen

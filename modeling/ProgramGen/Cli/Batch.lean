import ProgramGen.Cli.Folder
import ProgramGen.Cli.Manifest
import ProgramGen.Cli.Options
import ProgramGen.Service

/-!
# Batches

A batch asks a service for programs with consecutive seeds, for each seed in every chosen language.
The programs are printed, or written to a folder together with a manifest.
-/

namespace ProgramGen

/-! ## Requests -/

/-- The first `count` seeds from `first` on that are below the last seed. -/
def batchSeeds (first count : UInt64) : List UInt64 :=
  (List.range (min count.toNat (UInt64.size - 1 - first.toNat))).map fun i => first + UInt64.ofNat i

/-- The requests of a batch. -/
def Options.requests (o : Options) (first : UInt64) : List (Language × UInt64) :=
  (batchSeeds first o.count).flatMap fun seed => o.language.languages.map (·, seed)

/-- A request, and the program that answers it. -/
structure Answer where
  language : Language
  seed : UInt64
  program : Option SourceText

/-- The answers of a service to requests, one after the other. -/
def Service.answers (s : Service) : List (Language × UInt64) → List Answer
  | [] => []
  | (l, seed) :: rest =>
    let (program, s) := s.generate l seed
    ⟨l, seed, program⟩ :: s.answers rest

/-! ## Printing -/

/-- What a batch prints. -/
structure Printed where
  output : String
  errors : String
  failures : Nat

def Printed.nothing : Printed := ⟨"", "", 0⟩

/-- Print a program below a line that names its request, or name the request among the errors. -/
def Answer.print (p : Printed) (a : Answer) : Printed :=
  match a.program with
  | some program =>
    let title := "// " ++ a.language.name ++ ", seed " ++ toString a.seed ++ "\n"
    { p with output := p.output ++ title ++ program.text ++ "\n" }
  | none =>
    let error := "error: " ++ a.language.name ++ " generation failed for seed " ++
      toString a.seed ++ "\n"
    { p with errors := p.errors ++ error, failures := p.failures + 1 }

/-- Print answers in order. -/
def printAnswers (as : List Answer) : Printed := as.foldl Answer.print .nothing

/-! ## Writing -/

/-- The file of a program. -/
def fileName : Language → UInt64 → String
  | .kotlin, seed => "program_" ++ toString seed ++ ".kt"
  | .java, seed => "Main_" ++ toString seed ++ ".java"

def manifestName : String := "manifest.json"

/-- The file that answers a request, and its text. -/
def Answer.file? (a : Answer) : Option (String × String) :=
  a.program.map fun p => (fileName a.language a.seed, p.text)

def Answer.entry (a : Answer) : ManifestEntry := ⟨a.seed, a.language, a.file?.map (·.1)⟩

/-- The manifest of a batch. -/
def Options.manifest (o : Options) (first : UInt64) (as : List Answer) : Manifest :=
  ⟨o.profile, first, o.count, as.map Answer.entry⟩

/-- All files of a batch, the manifest last. -/
def Options.batchFiles (o : Options) (first : UInt64) (as : List Answer) :
    List (String × String) :=
  as.filterMap Answer.file? ++ [(manifestName, (o.manifest first as).text)]

/-- A path below another. -/
def joinPath (dir name : String) : String :=
  if dir.toList.getLast? == some '/' then dir ++ name else dir ++ "/" ++ name

/-- Write files to a folder, up to the first that cannot be written; its path is told. -/
def Folder.writeFiles (dir : String) : List (String × String) → Folder → Folder × Option String
  | [], f => (f, none)
  | (name, text) :: rest, f =>
    match f.writeFile? (joinPath dir name) text with
    | none => (f, some (joinPath dir name))
    | some f => f.writeFiles dir rest

end ProgramGen

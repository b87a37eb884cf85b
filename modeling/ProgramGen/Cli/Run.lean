import ProgramGen.Cli.Batch

/-!
# Running a batch

The whole effect of a command: what it prints, whether it succeeds, and the working folder that it
leaves. A batch succeeds if every request has been answered and every file written.
-/

namespace ProgramGen

/-- The effect of a command. -/
structure Outcome where
  output : String
  errors : String
  succeeded : Bool
  folder : Folder

/-- The last line of a batch with failures. -/
def failureLine (failures : Nat) (first : UInt64) : String :=
  "error: " ++ toString failures ++ " program(s) failed to generate (first seed " ++
    toString first ++ ")\n"

/-- The effect of a batch that was printed or written, with a number of failures. -/
def Outcome.ofBatch (p : Printed) (first : UInt64) (folder : Folder) : Outcome :=
  if p.failures = 0 then ⟨p.output, p.errors, true, folder⟩
  else ⟨p.output, p.errors ++ failureLine p.failures first, false, folder⟩

/-- The effect of a batch that was given up. -/
def Outcome.failed (message : String) (folder : Folder) : Outcome :=
  ⟨"", "error: " ++ message ++ "\n", false, folder⟩

def writeErrorMessage (path : String) : String := "error writing '" ++ path ++ "'"

namespace Options

/-- Write a batch to a folder. -/
def write (o : Options) (config : Config) (first : UInt64) (dir : String) (f : Folder) :
    Outcome :=
  match f.makeFolder? dir with
  | none => .failed (writeErrorMessage dir) f
  | some f =>
    let answers := (Service.new config o.strict).answers (o.requests first)
    match f.writeFiles dir (o.batchFiles first answers) with
    | (f, some path) => .failed (writeErrorMessage path) f
    | (f, none) => .ofBatch ⟨"", "", (o.manifest first answers).failures⟩ first f

/-- Print a batch. -/
def print (o : Options) (config : Config) (first : UInt64) (f : Folder) : Outcome :=
  .ofBatch (printAnswers ((Service.new config o.strict).answers (o.requests first))) first f

/-- Run a command in a working folder; `clock` is the seed where none is given. -/
def run (o : Options) (clock : UInt64) (f : Folder) : Outcome :=
  let first := o.seed.getD clock
  match o.config f.textAt? with
  | .error e => .failed e.message f
  | .ok config =>
    match o.output with
    | some dir => o.write config first dir f
    | none => o.print config first f

end Options

end ProgramGen

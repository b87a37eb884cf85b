import ProgramGen.Cli.Run

/-!
# The command

Reads the options, and prints or writes a batch of programs.
-/

namespace ProgramGen

/-- What is printed where help is asked for. -/
def usageText : String :=
  "Generate random programs in Kotlin and Java.\n\nOptions:\n" ++
    "  --language <kotlin|java|both>  languages of the programs (both)\n" ++
    "  --seed <N>                     seed of the first programs (from the clock)\n" ++
    "  --profile <NAME|FILE>          profile, or the path of a TOML file (default)\n" ++
    "  --count <N>                    programs in each language (1)\n" ++
    "  --output <DIR>                 folder for programs and a manifest (printed if absent)\n" ++
    "  --max-depth <N>                override the depth of expressions\n" ++
    "  --top-level <N>                override the number of top-level declarations\n" ++
    "  --strict                       fail instead of writing placeholders\n" ++
    "  --help, --version\n"

/-- What is told about arguments that cannot be used. -/
def UsageError.message : UsageError → String
  | unknown arg => "unexpected argument '" ++ arg ++ "'"
  | missingValue option => "a value is required for '" ++ option.text ++ "'"
  | refusedValue option => "invalid value for '" ++ option.text ++ "'"
  | badNumber option => "invalid number for '" ++ option.text ++ "'"
  | repeated => "an option is given twice"
  | surplusValue flag => "unexpected value for '" ++ flag.text ++ "'"
  | helpRequested => usageText
  | versionRequested => "0.1.0"

/-- Print what a batch has left to print, and give the exit code. -/
def finish (o : Outcome) : IO UInt32 := do
  IO.print o.output
  IO.eprint o.errors
  return if o.succeeded then 0 else 1

/-- The text of a file, if it can be read. -/
def fileText (path : String) : IO (Option String) := do
  try
    return some (← IO.FS.readFile path)
  catch _ =>
    return none

/-- Write the files of a batch below a folder, and give the path of the first that fails. -/
def writeBatch (dir : String) (files : List (String × String)) : IO (Option String) := do
  try
    IO.FS.createDirAll dir
  catch _ =>
    return some dir
  for (name, text) in files do
    let path := joinPath dir name
    try
      IO.FS.writeFile path text
    catch _ =>
      return some path
  return none

/-- Run a command on the file system. -/
def runCommand (o : Options) : IO UInt32 := do
  let nothing : Folder := ⟨[], []⟩
  let first ← match o.seed with
    | some seed => pure seed
    | none => UInt64.ofNat <$> IO.monoNanosNow
  let profile ← if Config.isProfilePath o.profile then fileText o.profile else pure none
  match o.config fun _ => profile with
  | .error e => finish (.failed e.message nothing)
  | .ok config =>
    match o.output with
    | none => finish (o.print config first nothing)
    | some dir =>
      let answers := (Service.new config o.strict).answers (o.requests first)
      match ← writeBatch dir (o.batchFiles first answers) with
      | some path => finish (.failed (writeErrorMessage path) nothing)
      | none =>
        finish (.ofBatch ⟨"", "", (o.manifest first answers).failures⟩ first nothing)

end ProgramGen

open ProgramGen in
def main (args : List String) : IO UInt32 := do
  match Options.parse args with
  | .ok o => runCommand o
  | .error e =>
    if e = .helpRequested || e = .versionRequested then
      IO.println e.message
      return 0
    else
      IO.eprintln ("error: " ++ e.message)
      return 2

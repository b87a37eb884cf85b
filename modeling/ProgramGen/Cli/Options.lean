import ProgramGen.Config.Profile
import ProgramGen.Language

/-!
# Command-line options

What a batch of programs is made of, read from the arguments of a command line. An option takes its
value after an equals sign or from the next argument, unless that begins with a dash; a value is
looked at only when the next option begins. No option is given twice, and there are no arguments
besides options.
-/

namespace ProgramGen

/-- The languages that programs are asked for in. -/
inductive LanguageChoice where
  | kotlin
  | java
  | both
  deriving DecidableEq, Repr, Inhabited

/-- The chosen languages, in the order in which their programs are generated. -/
def LanguageChoice.languages : LanguageChoice → List Language
  | kotlin => [.kotlin]
  | java => [.java]
  | both => [.kotlin, .java]

/-- The choice of a given name. -/
def LanguageChoice.ofName? : String → Option LanguageChoice
  | "kotlin" => some kotlin
  | "java" => some java
  | "both" => some both
  | _ => none

/-- A batch of programs, and where they go. -/
structure Options where
  language : LanguageChoice := .both
  /-- The seed of the first programs. -/
  seed : Option UInt64 := none
  /-- The name of a profile, or the path of its file. -/
  profile : String := "default"
  /-- How many programs in each language, with consecutive seeds. -/
  count : UInt64 := 1
  /-- The folder that programs are written to; without it they are printed. -/
  output : Option String := none
  maxDepth : Option Nat := none
  topLevel : Option Nat := none
  /-- Programs with placeholders count as failures. -/
  strict : Bool := false
  deriving Inhabited

/-- An option that takes a value. -/
inductive OptionName where
  | language
  | seed
  | profile
  | count
  | output
  | maxDepth
  | topLevel
  deriving DecidableEq, Repr

/-- An argument without a value. -/
inductive FlagName where
  | strict
  | help
  | version
  deriving DecidableEq, Repr

/-- Why the arguments describe no batch. -/
inductive UsageError where
  | unknown (arg : String)
  | missingValue (option : OptionName)
  /-- The value is not among those that the option takes. -/
  | refusedValue (option : OptionName)
  | badNumber (option : OptionName)
  /-- The same option twice. -/
  | repeated
  | surplusValue (flag : FlagName)
  | helpRequested
  | versionRequested
  deriving DecidableEq, Repr

namespace OptionName

def all : List OptionName := [language, seed, profile, count, output, maxDepth, topLevel]

def text : OptionName → String
  | language => "--language"
  | seed => "--seed"
  | profile => "--profile"
  | count => "--count"
  | output => "--output"
  | maxDepth => "--max-depth"
  | topLevel => "--top-level"

end OptionName

namespace FlagName

def all : List FlagName := [strict, help, version]

def text : FlagName → String
  | strict => "--strict"
  | help => "--help"
  | version => "--version"

end FlagName

/-! ## Values -/

/-- A number of 64 bits in decimal digits, perhaps after a plus sign. -/
def word? (text : String) : Option Nat :=
  let ds := match text.toList with
    | '+' :: ds => ds
    | ds => ds
  if ds.isEmpty || !ds.all Char.isDigit then none
  else
    let n := Toml.digitsValue 10 ds
    if n < UInt64.size then some n else none

/-- Put the value of an option in its place. -/
def OptionName.assign (o : OptionName) (value : String) (opts : Options) :
    Except UsageError Options :=
  match o with
  | language =>
    match LanguageChoice.ofName? value with
    | some c => .ok { opts with language := c }
    | none => .error (.refusedValue language)
  | profile => .ok { opts with profile := value }
  | output =>
    if value.isEmpty then .error (.refusedValue output) else .ok { opts with output := some value }
  | seed => number fun n => { opts with seed := some (UInt64.ofNat n) }
  | count => number fun n => { opts with count := UInt64.ofNat n }
  | maxDepth => number fun n => { opts with maxDepth := some n }
  | topLevel => number fun n => { opts with topLevel := some n }
where
  number (set : Nat → Options) : Except UsageError Options :=
    match word? value with
    | some n => .ok (set n)
    | none => .error (.badNumber o)

/-! ## Arguments -/

/-- What has been read of the arguments. -/
structure OptionReader where
  options : Options := {}
  given : List OptionName := []
  /-- The last option, with its value if that was an argument of its own. -/
  pending : Option (OptionName × Option String) := none

namespace OptionReader

/-- Take the value of an option that was not given before. -/
def take (r : OptionReader) (o : OptionName) (value : String) : Except UsageError OptionReader :=
  if r.given.contains o then .error .repeated
  else do return { r with options := ← o.assign value r.options, given := o :: r.given }

/-- Finish the last option. -/
def settle (r : OptionReader) : Except UsageError OptionReader :=
  match r.pending with
  | none => .ok r
  | some (o, none) => .error (.missingValue o)
  | some (o, some v) => { r with pending := none }.take o v

def flag (r : OptionReader) (f : FlagName) : Except UsageError OptionReader := do
  let r ← r.settle
  match f with
  | .strict =>
    if r.options.strict then .error .repeated
    else return { r with options := { r.options with strict := true } }
  | .help => .error .helpRequested
  | .version => .error .versionRequested

/-- An argument that begins with two dashes: a name, and what follows an equals sign. -/
def long (r : OptionReader) (name : String) (value : Option String) :
    Except UsageError OptionReader :=
  match OptionName.all.find? (·.text == name), FlagName.all.find? (·.text == name), value with
  | some o, _, some v => do (← r.settle).take o v
  | some o, _, none => do return { ← r.settle with pending := some (o, none) }
  | none, some f, some _ => .error (.surplusValue f)
  | none, some f, none => r.flag f
  | none, none, _ => .error (.unknown name)

/-- An argument that begins with one dash. -/
def short (r : OptionReader) (arg : String) : Char → Except UsageError OptionReader
  | 'h' => r.flag .help
  | 'V' => r.flag .version
  | _ => .error (.unknown arg)

/-- An argument without a dash is the value of the option before it. -/
def plain (r : OptionReader) (arg : String) : Except UsageError OptionReader :=
  match r.pending with
  | some (o, none) => .ok { r with pending := some (o, some arg) }
  | _ => .error (.unknown arg)

def argument (r : OptionReader) (arg : String) : Except UsageError OptionReader :=
  match arg.toList with
  | '-' :: '-' :: rest =>
    let name := String.ofList ('-' :: '-' :: rest.takeWhile (· != '='))
    match rest.dropWhile (· != '=') with
    | _ :: value => r.long name (some (String.ofList value))
    | [] => r.long name none
  | '-' :: c :: _ => r.short arg c
  | _ => r.plain arg

/-- Read arguments; two dashes end the options. -/
def arguments (r : OptionReader) : List String → Except UsageError OptionReader
  | [] => r.settle
  | "--" :: [] => r.settle
  | "--" :: arg :: _ => .error (.unknown arg)
  | arg :: rest => do (← r.argument arg).arguments rest

end OptionReader

namespace Options

/-- The options that the arguments of a command line give. -/
def parse (args : List String) : Except UsageError Options := do
  return (← OptionReader.arguments {} args).options

/-- The profile, with the limits that the options override. -/
def config (o : Options) (readFile : String → Option String) : Except ProfileError Config := do
  let c ← Config.ofProfile readFile o.profile
  let maxDepth := o.maxDepth.getD c.limits.maxDepth
  let minTopLevel := o.topLevel.getD c.limits.minTopLevel
  let maxTopLevel := o.topLevel.getD c.limits.maxTopLevel
  return { c with
    limits := { c.limits with
      maxDepth := maxDepth
      minTopLevel := minTopLevel
      maxTopLevel := maxTopLevel } }

end Options

end ProgramGen

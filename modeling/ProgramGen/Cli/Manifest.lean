import ProgramGen.Language

/-!
# The manifest of a batch

A record of the programs in a folder: which requests were answered, and in which files. It is
written as JSON, one value a line.
-/

namespace ProgramGen

/-- A request of a batch, and the file that answers it. -/
structure ManifestEntry where
  seed : UInt64
  language : Language
  file : Option String
  deriving DecidableEq

structure Manifest where
  profile : String
  firstSeed : UInt64
  count : UInt64
  programs : List ManifestEntry

/-- Whether the request was answered. -/
def ManifestEntry.ok (e : ManifestEntry) : Bool := e.file.isSome

/-- How many requests were not answered. -/
def Manifest.failures (m : Manifest) : Nat := (m.programs.filter (!·.ok)).length

namespace Manifest

/-- Two hexadecimal digits. -/
def hexByte (n : Nat) : List Char := [Nat.digitChar (n / 16), Nat.digitChar (n % 16)]

/-- A character within a JSON string. -/
def escaped (c : Char) : List Char :=
  match c with
  | '"' => ['\\', '"']
  | '\\' => ['\\', '\\']
  | '\n' => ['\\', 'n']
  | '\r' => ['\\', 'r']
  | '\t' => ['\\', 't']
  | '\x08' => ['\\', 'b']
  | '\x0c' => ['\\', 'f']
  | c => if c.toNat < 0x20 then ['\\', 'u', '0', '0'] ++ hexByte c.toNat else [c]

/-- A JSON string. -/
def quoted (text : String) : String :=
  String.ofList ('"' :: text.toList.flatMap escaped ++ ['"'])

/-- The lines of one entry, in braces. -/
def entryText (e : ManifestEntry) : String :=
  let file := match e.file with
    | some name => quoted name
    | none => "null"
  "    \x7b\n" ++
    "      \"seed\": " ++ toString e.seed ++ ",\n" ++
    "      \"language\": " ++ quoted e.language.name ++ ",\n" ++
    "      \"file\": " ++ file ++ ",\n" ++
    "      \"ok\": " ++ (if e.ok then "true" else "false") ++ "\n" ++
  "    \x7d"

def entriesText (es : List ManifestEntry) : String :=
  if es.isEmpty then "[]" else "[\n" ++ ",\n".intercalate (es.map entryText) ++ "\n  ]"

/-- The text of a manifest. -/
def text (m : Manifest) : String :=
  "\x7b\n" ++
    "  \"profile\": " ++ quoted m.profile ++ ",\n" ++
    "  \"first_seed\": " ++ toString m.firstSeed ++ ",\n" ++
    "  \"count\": " ++ toString m.count ++ ",\n" ++
    "  \"programs\": " ++ entriesText m.programs ++ "\n" ++
  "\x7d"

end Manifest

end ProgramGen

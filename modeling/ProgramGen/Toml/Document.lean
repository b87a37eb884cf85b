import ProgramGen.Toml.Number
import ProgramGen.Toml.Table

/-!
# Documents

A TOML document: lines that bind keys, and headers that name the table in which the keys after them
are bound. Its value is a table, and there is none for a text that is no document.
-/

namespace ProgramGen.Toml

/-! ## Keys -/

def isBareKeyChar (c : Char) : Bool := c.isAlphanum || c == '-' || c == '_'

/-- A key without quotes. -/
def bareKey : Reader String := fun cs =>
  let name := cs.takeWhile isBareKeyChar
  if name.isEmpty then none else some (String.ofList name, cs.dropWhile isBareKeyChar)

def simpleKey : Reader String := fun cs =>
  match cs with
  | '"' :: _ => lineText cs
  | '\'' :: _ => lineText cs
  | _ => bareKey cs

/-- How deep values are nested, and how many parts a key has, at most. -/
def maxNesting : Nat := 79

/-- A key of one or several parts: the parts before the last, and the last. -/
def dottedKey : Reader (List String × String) := do
  go maxNesting
where
  go : Nat → Reader (List String × String)
    | 0 => failure
    | n + 1 => do
      skipBlanks
      let key ← simpleKey
      skipBlanks
      if ← accept '.' then
        let (path, last) ← go n
        return (key :: path, last)
      else return ([], key)

/-! ## Values -/

/-- A key, an equals sign and a value. -/
def binding (value : Reader ConfigValue) : Reader ((List String × String) × ConfigValue) := do
  let key ← dottedKey
  expect '='
  skipBlanks
  return (key, ← value)

/-- A table in braces, within one line. -/
def inlineTable (value : Reader ConfigValue) : Reader ConfigValue := do
  let bindings ← commaSeparated (binding value) skipBlanks '\x7d' false
  let entries : Option Entries := bindings.foldlM (fun es ((path, key), v) =>
    es.insertDotted? path key (.value v)) []
  return .table (Node.entryValues (← entries))

def array (value : Reader ConfigValue) : Reader ConfigValue :=
  .list <$> commaSeparated value skipLines ']' true

def scalar : Reader ConfigValue := fun cs =>
  match cs with
  | '"' :: _ => (ConfigValue.text <$> text) cs
  | '\'' :: _ => (ConfigValue.text <$> text) cs
  | 't' :: _ => ((fun _ => .bool true) <$> word "true") cs
  | 'f' :: _ => ((fun _ => .bool false) <$> word "false") cs
  | _ => number cs

/-- A value in which arrays and tables are nested at most `n` deep. -/
def value : Nat → Reader ConfigValue
  | 0 => scalar
  | n + 1 => do
    if ← accept '[' then array (value n)
    else if ← accept '\x7b' then inlineTable (value n)
    else scalar

/-! ## Lines -/

/-- A document as far as it has been read, and the path of the last header. -/
structure Draft where
  entries : Entries
  current : List String

/-- The rest of a header after its first bracket. -/
def header (d : Draft) : Reader Draft := do
  if ← accept '[' then
    let (path, key) ← dottedKey
    expect ']'
    expect ']'
    lineEnd
    return ⟨← d.entries.openElement? path key, path ++ [key]⟩
  else
    let (path, key) ← dottedKey
    expect ']'
    lineEnd
    return ⟨← d.entries.openTable? path key, path ++ [key]⟩

/-- A line that binds a key. -/
def keyLine (d : Draft) : Reader Draft := do
  let ((path, key), v) ← binding (value maxNesting)
  lineEnd
  return { d with entries := ← d.entries.insertBelow? d.current path key (.value v) }

/-- Read the lines of a document; each takes at least one character. -/
def lines : Nat → Draft → List Char → Option Draft
  | 0, _, _ => none
  | n + 1, d, cs =>
    match cs.dropWhile isBlank with
    | [] => some d
    | '[' :: rest => do
      let (d, rest) ← header d rest
      lines n d rest
    | c :: rest =>
      if c = '#' ∨ c = '\n' ∨ c = '\r' then do
        let (_, rest) ← lineEnd (c :: rest)
        lines n d rest
      else do
        let (d, rest) ← keyLine d (c :: rest)
        lines n d rest

/-- A text without a byte order mark at its start. -/
def withoutMark : List Char → List Char
  | '\ufeff' :: rest => rest
  | cs => cs

/-- The value of a document. -/
def document? (text : String) : Option ConfigValue :=
  let cs := withoutMark text.toList
  (lines (cs.length + 1) ⟨[], []⟩ cs).map fun d => .table (Node.entryValues d.entries)

end ProgramGen.Toml

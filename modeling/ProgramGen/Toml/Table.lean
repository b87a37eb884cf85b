import ProgramGen.Config.Value

/-!
# Tables

A table is defined once: by its header, as the path to another table's header, by dotted keys, or as
one of an array of tables. Who defined it decides who may add to it. Keys within a table are defined
once.
-/

namespace ProgramGen.Toml

/-- How a table came about. -/
inductive Origin where
  /-- By a header of its own. -/
  | header
  /-- On the path to another header. -/
  | path
  /-- By a dotted key. -/
  | dotted
  deriving DecidableEq, Repr

/-- What a key is bound to while a document is read. -/
inductive Node where
  | value (v : ConfigValue)
  | table (origin : Origin) (entries : List (String × Node))
  /-- An array of tables; all but the last are complete. -/
  | tables (before : List Node) (last : List (String × Node))

abbrev Entries := List (String × Node)

namespace Entries

def get? (es : Entries) (key : String) : Option Node := (es.find? (·.1 == key)).map (·.2)

/-- Put a node in the place of the one bound to a key. -/
def replace (es : Entries) (key : String) (node : Node) : Entries :=
  es.map fun (k, x) => if k = key then (k, node) else (k, x)

/-- Bind a key that is not bound yet. -/
def insert? (es : Entries) (key : String) (node : Node) : Option Entries :=
  if (es.get? key).isSome then none else some (es ++ [(key, node)])

/-- Change the table that a path leads to; tables that are missing on the way have the given origin.
In an array of tables the way leads through the last one. Dotted keys do not enter a table that has
a header. -/
def change (missing : Origin) (f : Origin → Entries → Option Entries) :
    List String → Origin → Entries → Option Entries
  | [], origin, es => f origin es
  | key :: path, _, es =>
    match es.get? key with
    | none => do
      let sub ← change missing f path missing []
      return es ++ [(key, .table missing sub)]
    | some (.value _) => none
    | some (.tables before last) => do
      let sub ← change missing f path .header last
      return es.replace key (.tables before sub)
    | some (.table origin sub) =>
      if missing = .dotted ∧ origin = .header then none
      else do
        let sub ← change missing f path origin sub
        return es.replace key (.table origin sub)

/-- Bind a dotted key. The table that it leads to is one that only dotted keys define. -/
def insertDotted? (es : Entries) (path : List String) (key : String) (node : Node) :
    Option Entries :=
  change .dotted (fun origin sub =>
    if path ≠ [] ∧ origin ≠ .dotted then none else sub.insert? key node) path .header es

/-- Bind a dotted key in the table that the last header named. -/
def insertBelow? (es : Entries) (current path : List String) (key : String) (node : Node) :
    Option Entries :=
  change .path (fun _ sub => sub.insertDotted? path key node) current .header es

/-- Open the table of a header. -/
def openTable? (es : Entries) (path : List String) (key : String) : Option Entries :=
  change .path (fun _ sub =>
    match sub.get? key with
    | none => some (sub ++ [(key, .table .header [])])
    | some (.table .path entries) => some (sub.replace key (.table .header entries))
    | some _ => none) path .header es

/-- Open a new last table of an array. -/
def openElement? (es : Entries) (path : List String) (key : String) : Option Entries :=
  change .path (fun _ sub =>
    match sub.get? key with
    | none => some (sub ++ [(key, .tables [] [])])
    | some (.tables before last) =>
      some (sub.replace key (.tables (before ++ [.table .header last]) []))
    | some _ => none) path .header es

end Entries

mutual

/-- The finished value of a node. -/
def Node.toValue : Node → ConfigValue
  | .value v => v
  | .table _ entries => .table (Node.entryValues entries)
  | .tables before last => .list (Node.values before ++ [.table (Node.entryValues last)])

def Node.values : List Node → List ConfigValue
  | [] => []
  | x :: xs => x.toValue :: Node.values xs

def Node.entryValues : List (String × Node) → List (String × ConfigValue)
  | [] => []
  | (k, x) :: rest => (k, x.toValue) :: Node.entryValues rest

end

end ProgramGen.Toml

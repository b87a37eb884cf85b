/-!
# A working folder

The files below one folder, by relative path. Paths are walked step by step, so each step but the
last has to be a folder that exists. A path may leave the folder, and finds nothing outside but the
folders on the way; absolute paths lead nowhere. Names and paths are limited in length.
-/

namespace ProgramGen

/-- The place of a file or folder: the names on the way to it, after a step up for each folder that
is left. -/
abbrev Place := List String

/-- The folder around a place. -/
def Place.up (p : Place) : Place := if p.all (· == "..") then p ++ [".."] else p.dropLast

/-- The folders and files below the working folder. -/
structure Folder where
  folders : List Place
  files : List (Place × String)

namespace Folder

/-- The most bytes of a name. -/
def nameLimit : Nat := 255

/-- The most bytes of a path. -/
def pathLimit : Nat := 4095

/-- The steps of a relative path. -/
def steps? (path : String) : Option (List String) :=
  match path.toList with
  | [] => none
  | '/' :: _ => none
  | cs =>
    if path.utf8ByteSize ≤ pathLimit && !cs.contains '\x00' then some (path.splitOn "/") else none

def hasFolder (f : Folder) (p : Place) : Bool := p.all (· == "..") || f.folders.contains p

def file? (f : Folder) (p : Place) : Option String := (f.files.find? (·.1 == p)).map (·.2)

/-- One step from a folder to another, which `enter` allows or makes. -/
def step (enter : Folder → Place → Option Folder) (f : Folder) (here : Place) :
    String → Option (Folder × Place)
  | "" => some (f, here)
  | "." => some (f, here)
  | ".." => some (f, Place.up here)
  | name =>
    if name.utf8ByteSize ≤ nameLimit then (enter f (here ++ [name])).map (·, here ++ [name])
    else none

/-- The folder at the end of a path. -/
def walk (enter : Folder → Place → Option Folder) : List String → Folder → Place →
    Option (Folder × Place)
  | [], f, here => some (f, here)
  | s :: rest, f, here => do
    let (f, here) ← step enter f here s
    walk enter rest f here

/-- Enter a folder that exists. -/
def existing (f : Folder) (p : Place) : Option Folder := if f.hasFolder p then some f else none

/-- Enter a folder; make it unless there is one, or a file of that name. -/
def making (f : Folder) (p : Place) : Option Folder :=
  if f.hasFolder p then some f
  else if (f.file? p).isSome then none
  else some { f with folders := f.folders ++ [p] }

/-- The place of a file: its folder has to exist, itself it need not. -/
def fileAt? (f : Folder) (path : String) : Option Place := do
  let steps ← steps? path
  let (_, here) ← walk existing steps.dropLast f []
  return here ++ [← steps.getLast?]

/-- The text of a file. -/
def textAt? (f : Folder) (path : String) : Option String := do f.file? (← f.fileAt? path)

/-- Make the folder at the end of a path and all on the way to it. A dot at the end stands in a
folder that has to be there. -/
def makeFolder? (f : Folder) (path : String) : Option Folder := do
  let steps ← steps? path
  if (steps.reverse.find? (· != "")) == some "." then
    let (f, _) ← walk making (steps.filter fun s => s != "" && s != ".").dropLast f []
    return (← walk existing steps f []).1
  else
    return (← walk making steps f []).1

/-- Write a file, in the place of one that is there. -/
def writeFile? (f : Folder) (path text : String) : Option Folder := do
  let p ← f.fileAt? path
  if f.hasFolder p then none
  else some { f with files := f.files.filter (·.1 != p) ++ [(p, text)] }

/-- A folder with the given files, and the folders on the way to them. -/
def ofFiles (files : List (String × String)) : Folder :=
  files.foldl (fun f (path, text) =>
    let place := path.splitOn "/"
    let above := (List.range (place.length - 1)).map fun n => place.take (n + 1)
    { folders := f.folders ++ above.filter fun p => !f.folders.contains p
      files := f.files ++ [(place, text)] }) ⟨[], []⟩

/-- The files below the folder that another folder does not have. -/
def newFiles (f before : Folder) : List (Place × String) :=
  f.files.filter fun (p, _) => p.head? != some ".." && (before.file? p).isNone

end Folder

end ProgramGen

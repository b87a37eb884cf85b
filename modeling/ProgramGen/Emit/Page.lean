import ProgramGen.Error

/-!
# Pages

What an emitter writes on: lines at a level of indentation. Expressions become strings; one that
takes several lines has its inner lines written on a page of their own, one level deeper, which is
then cut out as a string. `Emit α` is a computation that writes and may fail; the page is kept then.
-/

namespace ProgramGen

/-- A page and what the emitter of Java keeps beside it. -/
structure Page where
  out : String
  indent : Nat
  /-- Variables that a type test has narrowed, innermost first. -/
  casts : List (String × Ty)
  /-- Numbers of parameters of the function types written so far, in ascending order. -/
  arities : List Nat

/-- A page without lines. -/
def Page.blank : Page := ⟨"", 0, [], []⟩

/-- A computation that writes on a page. -/
abbrev Emit := ExceptT GenError (StateM Page)

namespace Emit

variable {α : Type}

/-- Run a computation; the page is there in either case. -/
def runOn (x : Emit α) (p : Page) : Except GenError α × Page := x p

/-- The spaces in front of a line. -/
def padding (indent : Nat) : String := String.ofList (List.replicate (4 * indent) ' ')

/-- The spaces in front of the next line. -/
def pad : Emit String := return padding (← get).indent

/-- Write a line. -/
def line (text : String) : Emit Unit :=
  modify fun p => { p with out := p.out ++ padding p.indent ++ text ++ "\n" }

/-- Write an empty line, unless there is one already or nothing is written yet. -/
def blank : Emit Unit :=
  modify fun p =>
    if p.out.isEmpty || p.out.endsWith "\n\n" then p else { p with out := p.out ++ "\n" }

/-- Write one level deeper. -/
def indented (body : Emit α) : Emit α := fun p =>
  let (r, p') := body { p with indent := p.indent + 1 }
  (r, { p' with indent := p'.indent - 1 })

/-- Write on a page of its own, one level deeper, and give back what was written there. -/
def detached (body : Emit Unit) : Emit String := fun p =>
  let saved := p.out
  let (r, p') := body { p with out := "", indent := p.indent + 1 }
  -- What the body has noted besides its text stays noted.
  (r.map fun _ => p'.out, { p' with out := saved, indent := p'.indent - 1 })

/-- Statements in braces, with something after the opening one. -/
def braced (header : String) (stmts : Emit Unit) : Emit String := do
  let body ← detached stmts
  return "\x7b" ++ header ++ "\n" ++ body ++ (← pad) ++ "\x7d"

/-- Statements in braces as a part of the page: a line that opens, one that closes. -/
def enclosed (first last : String) (stmts : Emit Unit) : Emit Unit := do
  line first
  indented stmts
  line last

/-- Two operands with an operator between them. -/
def binary (op : String) (lhs rhs : Emit String) : Emit String := do
  let a ← lhs
  let b ← rhs
  return "(" ++ a ++ " " ++ op ++ " " ++ b ++ ")"

end Emit

/-- Texts with commas between them. -/
def commas (texts : List String) : String := ", ".intercalate texts

/-- A text in angle brackets, if there is any. -/
def inAngles (texts : List String) : String :=
  if texts.isEmpty then "" else "<" ++ commas texts ++ ">"

end ProgramGen

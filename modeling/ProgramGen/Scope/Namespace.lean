/-!
# Namespaces

A namespace is the path from the global root to a scope. Every prefix of it encloses it.
-/

namespace ProgramGen

/-- The path of a scope, outermost segment first. -/
structure Namespace where
  segments : List String
  deriving DecidableEq, Hashable, Repr, Inhabited

namespace Namespace

/-- The segment that every path starts with. -/
def globalSegment : String := "global"

def global : Namespace := ⟨[globalSegment]⟩

/-- The scope `segment` inside this one. -/
def child (ns : Namespace) (segment : String) : Namespace := ⟨ns.segments ++ [segment]⟩

def size (ns : Namespace) : Nat := ns.segments.length

/-- The enclosing namespace; the outermost one has none. -/
def parent? (ns : Namespace) : Option Namespace :=
  if ns.size ≤ 1 then none else some ⟨ns.segments.dropLast⟩

/-- The innermost segment. -/
def last (ns : Namespace) : String := ns.segments.getLast?.getD globalSegment

def isGlobal (ns : Namespace) : Bool := ns.size == 1

/-- The namespace and all that enclose it, outermost first. -/
def lineage (ns : Namespace) : List Namespace :=
  (List.range ns.size).map fun n => ⟨ns.segments.take (n + 1)⟩

/-- Whether the namespace is `other` or inside it. -/
def isWithin (ns other : Namespace) : Bool := other.segments.isPrefixOf ns.segments

/-- Segment by segment; a prefix comes first. -/
def compare (a b : Namespace) : Ordering := go a.segments b.segments
where
  go : List String → List String → Ordering
    | [], [] => .eq
    | [], _ :: _ => .lt
    | _ :: _, [] => .gt
    | x :: xs, y :: ys => if x < y then .lt else if x = y then go xs ys else .gt

def text (ns : Namespace) : String := "/".intercalate ns.segments

end Namespace

end ProgramGen

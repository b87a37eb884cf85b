import ProgramGen.Synthesis.TypeChoice

/-!
# The recursive entries of the generator

Expressions, function bodies and new values are generated by way of each other. The parts of the
generator take these three entries as an `Engine`; each part is then defined, and can be reasoned
about, for whatever engine it is given. The engine that ties them together is in
`Synthesis.Expression`.
-/

namespace ProgramGen

/-- What is asked of an expression besides its type. -/
structure ExprOpts where
  /-- Only constants, variables and new values. -/
  onlyLeaves : Bool := false
  /-- The type may be narrowed to a subtype. -/
  narrowing : Bool := true
  /-- No variable may be read. -/
  excludeVar : Bool := false
  /-- A placeholder, where placeholders are allowed. -/
  placeholder : Bool := false
  /-- A closure may implement an interface. -/
  samCoercion : Bool := false
  deriving DecidableEq, Repr

namespace ExprOpts

def leaves : ExprOpts := { onlyLeaves := true }

/-- A value of just the requested type. -/
def exact : ExprOpts := { narrowing := false }

end ExprOpts

/-- The entries that the parts of the generator call each other by. -/
structure Engine where
  /-- An expression whose type is assignable to the given one. -/
  expr : Ty → ExprOpts → Gen Expr
  /-- The body of a function that returns the given type. -/
  body : Ty → Gen Expr
  /-- A new value of the given type; the flag allows a closure for an interface. -/
  new : Ty → Bool → Gen Expr

/-- The engine that gives up at once. -/
def Engine.exhausted : Engine where
  expr _ _ := throw .outOfSteps
  body _ := throw .outOfSteps
  new _ _ := throw .outOfSteps

end ProgramGen

import ProgramGen.Scope.Namespace
import ProgramGen.Ty.Text

/-!
# Errors

Why a program could not be generated or written down. To run out of depth is not among the causes,
for placeholders stand where nothing fits.
-/

namespace ProgramGen

/-- The cause that ends a request. -/
inductive GenError where
  /-- The scope has a declaration of that kind and name. -/
  | alreadyBound (name : String) (ns : Namespace)
  | typeAlreadyBound (name : String) (ns : Namespace)
  | notVariable (name : String)
  | unknownClass (name : String)
  | notMember (name className : String)
  | lostFunc (name : String)
  | lostClass (name : String)
  | nestedWithoutBody (name : String)
  /-- No type can be named in a scope. -/
  | noType (ns : Namespace)
  /-- No class has a field of the type. -/
  | noField (ty : Ty)
  | cannotUnify (expected actual : Ty)
  | blockAsValue
  | loopAsValue
  /-- A placeholder where none may be left; `shown` is its type as the program would write it. -/
  | unresolvedValue (shown : String)
  /-- The bound on the recursion of the generator was reached. -/
  | outOfSteps
  deriving DecidableEq

/-- What kind of failure an error is. -/
inductive GenErrorKind where
  | invariantViolation
  | noCandidate
  | unification
  | emission
  | outOfSteps
  deriving DecidableEq, Repr

namespace GenError

def kind : GenError → GenErrorKind
  | alreadyBound .. => .invariantViolation
  | typeAlreadyBound .. => .invariantViolation
  | notVariable _ => .invariantViolation
  | unknownClass _ => .invariantViolation
  | notMember .. => .invariantViolation
  | lostFunc _ => .invariantViolation
  | lostClass _ => .invariantViolation
  | nestedWithoutBody _ => .invariantViolation
  | noType _ => .noCandidate
  | noField _ => .noCandidate
  | cannotUnify .. => .unification
  | blockAsValue => .emission
  | loopAsValue => .emission
  | unresolvedValue _ => .emission
  | outOfSteps => .outOfSteps

/-- What went wrong, without the kind of failure. -/
def detail : GenError → String
  | alreadyBound n ns => "'" ++ n ++ "' is already bound in " ++ ns.text
  | typeAlreadyBound n ns => "type parameter '" ++ n ++ "' is already bound in " ++ ns.text
  | notVariable n => "'" ++ n ++ "' is not a variable declaration"
  | unknownClass n => "class '" ++ n ++ "' is not registered"
  | notMember n c => "'" ++ n ++ "' cannot be a member of class '" ++ c ++ "'"
  | lostFunc n => "function '" ++ n ++ "' vanished"
  | lostClass n => "class '" ++ n ++ "' vanished"
  | nestedWithoutBody n => "nested function '" ++ n ++ "' has no body"
  | noType ns => "no type available for type " ++ ns.text
  | noField t => "no field available for type " ++ t.text
  | cannotUnify e a => "cannot unify " ++ e.text ++ " with " ++ a.text
  | blockAsValue => "block in expression position"
  | loopAsValue => "loop in expression position"
  | unresolvedValue shown => "unresolved value of type " ++ shown
  | outOfSteps => "the bound on the recursion was reached"

/-- The message for an error. -/
def message (e : GenError) : String :=
  match e.kind with
  | .invariantViolation => "internal invariant violated: " ++ e.detail
  | .emission => "cannot emit program: " ++ e.detail
  | _ => e.detail

end GenError

end ProgramGen

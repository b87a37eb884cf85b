import ProgramGen.Config.Binary64

/-!
# Configuration

Limits on the size of a program, and the probabilities of the generator's choices. The values given
here are those of the profile named default.
-/

namespace ProgramGen

structure ClassLimits where
  maxFields : Nat := 2
  maxFuncs : Nat := 2
  deriving DecidableEq, Repr, Inhabited

structure FuncLimits where
  maxParams : Nat := 2
  /-- Expressions evaluated only for their effect, for each body. -/
  maxSideEffects : Nat := 1
  deriving DecidableEq, Repr, Inhabited

structure Limits where
  /-- Declarations before the entry function. -/
  minTopLevel : Nat := 5
  maxTopLevel : Nat := 10
  /-- The depth from which on only leaves are generated. -/
  maxDepth : Nat := 6
  /-- Local variables that hold part of an expression, for each scope. -/
  maxVarDecls : Nat := 3
  /-- Type parameters of a class or function. -/
  maxTypeParams : Nat := 3
  /-- Parameters of a function type. -/
  maxFunctionalParams : Nat := 3
  cls : ClassLimits := {}
  func : FuncLimits := {}
  deriving DecidableEq, Repr, Inhabited

structure Probabilities where
  /-- A body is an expression and not a block, where both are possible. -/
  functionExpr : Binary64 := 0.5
  /-- A type parameter has a bound. -/
  boundedTypeParameters : Binary64 := 0.5
  /-- A function is generic. -/
  parameterizedFunctions : Binary64 := 0.3
  /-- A closure implements an interface of one function. -/
  samCoercion : Binary64 := 0.5
  /-- A function value refers to a declared function. -/
  funcRef : Binary64 := 0.5
  /-- A call goes through a variable of function type. -/
  funcRefCall : Binary64 := 0.5
  /-- A visible variable of just the right type is used. -/
  existingVar : Binary64 := 0.7
  /-- The requested type is narrowed to a subtype. -/
  subtypeNarrowing : Binary64 := 0.5
  /-- A function returns the type of one of its parameters. -/
  returnParamType : Binary64 := 0.5
  /-- Parameters have default values. -/
  defaultParams : Binary64 := 0.75
  /-- A method of an abstract class has no body. -/
  abstractBody : Binary64 := 0.5
  /-- A block has a loop. -/
  loopInBody : Binary64 := 0.5
  /-- A loop appends to a string. -/
  loopStringConcat : Binary64 := 0.69
  /-- A loop has the first of two shapes. -/
  loopShape : Binary64 := 0.43
  /-- Only type parameters are considered where some are visible. -/
  typeParamsOnly : Binary64 := 0.5
  /-- An expression is moved into a local variable. -/
  sideEffectDecl : Binary64 := 0.5
  deriving DecidableEq, Repr, Inhabited

/-- The configuration of a generator. -/
structure Config where
  limits : Limits := {}
  prob : Probabilities := {}
  deriving DecidableEq, Repr, Inhabited

end ProgramGen

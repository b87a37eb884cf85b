import ProgramGen.Class.Subtypes
import ProgramGen.Synthesis.Session

/-!
# Choosing types

The types that can be named at a position, one of them at random, and fresh type parameters. What is
chosen is never a bare generic class: it is applied to arguments, or replaced by the top type where
no arguments fit.
-/

namespace ProgramGen

/-- What is left out of the types at a position, or added to them. -/
structure TypeOpts where
  /-- Add the type without values. -/
  withVoid : Bool := false
  noArrays : Bool := false
  /-- Leave out parameters that may only come out of a class. -/
  noCovariant : Bool := false
  /-- Leave out parameters that may only go into a class. -/
  noContravariant : Bool := false
  noVariables : Bool := false
  noFunctions : Bool := false
  deriving DecidableEq, Repr

/-- The types that can be type arguments. -/
def TypeOpts.arguments : TypeOpts :=
  { noArrays := true, noCovariant := true, noContravariant := true, noFunctions := true }

namespace Session

/-- The visible type parameters that `o` leaves. -/
def variableTypes (s : Session) (o : TypeOpts) : List Ty :=
  if o.noVariables then []
  else
    ((s.context.types s.frame.ns true).filter fun p =>
      !(o.noCovariant && p.variance == .covariant) &&
        !(o.noContravariant && p.variance == .contravariant)).map .param

/-- Classes, unless the program is as deep as it may get. -/
def classTypes (s : Session) : List Ty :=
  if s.frame.depth ≥ s.config.limits.maxDepth then [] else s.classes.map (·.type)

/-- The language's own types that `o` leaves. -/
def providedTypes (s : Session) (o : TypeOpts) : List Ty :=
  let l := s.language
  let values := l.valueTypes.filter fun t => !(o.noArrays && t.name == l.arrayName)
  let void := if o.withVoid then [l.voidType] else []
  let functions :=
    if o.noFunctions then []
    else (List.range (s.config.limits.maxFunctionalParams + 1)).map fun n =>
      .constructor (l.functionCtor n)
  values ++ void ++ functions

/-- The names of the visible type parameters, without the mark of those of functions. -/
def visibleLetters (s : Session) : List String :=
  (s.context.types s.frame.ns true).map fun p => stripFunctionMark p.name
where
  /-- A name without the marks `F_` at its front. -/
  stripFunctionMark (name : String) : String := String.ofList (strip name.toList)
  strip : List Char → List Char
    | 'F' :: '_' :: rest => strip rest
    | cs => cs

end Session

namespace Gen

/-- The types that can be named here. At times only the type parameters are. -/
def candidateTypes (o : TypeOpts) : Gen (List Ty) := do
  let s ← get
  let params := s.variableTypes o
  if ← onlyIf (!params.isEmpty) (chance (·.typeParamsOnly)) then
    return params
  else
    return s.classTypes ++ params ++ s.providedTypes o

/-- Apply a generic class to arguments that can be named here; the parameters that `fixed` binds
keep their binding. -/
def instantiate (c : TypeCtor) (fixed : Subst) : Gen (Option (Ty × Subst)) := do
  let l := (← get).language
  let isArray := c.builtin && c.name == l.arrayName
  -- An array of a type variable cannot be created in Java.
  let types ← candidateTypes { TypeOpts.arguments with noVariables := isArray }
  rand (c.instantiate types fixed [] false)

/-- The class applied to arguments, or the top type. -/
def instantiateOrTop (c : TypeCtor) : Gen Ty := do
  match ← instantiate c ∅ with
  | some (t, _) => return t
  | none => return (← get).anyType

/-- A random type that can be named here. -/
def selectType (o : TypeOpts) : Gen Ty := do
  match ← pick (← candidateTypes o) with
  | none => throw (.noType (← get).frame.ns)
  | some (.constructor c) => instantiateOrTop c
  | some t => return t

/-- Replace an argument that is not within the bound of its parameter by the bound. -/
def withinBound (p : TypeParam) (arg : Ty) : Ty :=
  match p.effectiveBound with
  | some b => if arg.isSubtype b then arg else b
  | none => arg

/-- The type of a value: a generic class gets arguments, and a wildcard is replaced by its bound, or
by the bound of its parameter if its own is too wide. -/
def concretize (t : Ty) : Gen Ty := do
  let top := (← get).anyType
  match t with
  | .constructor c => instantiateOrTop c
  | .wildcard .. => return t.withoutWildcards top
  | .applied c _ =>
    if t.hasWildcards then
      -- A wildcard without bound gives the top type, which may break the bound of the parameter.
      return c.apply (List.zipWith withinBound c.params (t.withoutWildcards top).args)
    else return t
  | _ => return t

/-- A random concrete subtype of `t`, or `t` itself. -/
def narrow (t : Ty) : Gen Ty := do
  let s ← get
  match ← pick (findSubtypes t s.finishedClasses s.language.valueTypes true true) with
  | some (.constructor c) =>
    match ← instantiate c ∅ with
    | some (sub, _) => return if sub.isSubtype t then sub else t
    | none => return t
  | some sub => return sub
  | none => return t

/-- Variance at random, if it is wanted at all. -/
def randomVariance (wanted : Bool) : Gen Variance := do
  if ← onlyIf wanted coin then
    if ← coin then return .covariant else return .contravariant
  else return .invariant

/-- A bound at random, or none. -/
def randomBound : Gen (Option Ty) := do
  if ← chance (·.boundedTypeParameters) then
    let t ← selectType .arguments
    return if t.hasWildcards then none else some t.boxed
  else return none

/-- Register up to `n` fresh type parameters; there are fewer if the letters run out. -/
def freshTypeParams (withVariance forFunc : Bool) :
    Nat → List String → Gen (List TypeParam)
  | 0, _ => return []
  | n + 1, taken => do
    match ← rand (freshLetter taken) with
    | none => return []
    | some letter =>
      let variance ← randomVariance withVariance
      -- The bound is chosen before the parameter is registered, and so does not mention it.
      let bound ← randomBound
      let p : TypeParam := ⟨if forFunc then "F_" ++ letter else letter, variance, bound⟩
      addType (← get).frame.ns p
      return p :: (← freshTypeParams withVariance forFunc n (taken ++ [letter]))

/-- Fresh type parameters, registered in the current scope. Without a count, a coin decides whether
there are any. Variance exists only in Kotlin. -/
def genTypeParams (count : Option Nat) (withVariance : Bool) (taken : List String)
    (forFunc : Bool) : Gen (List TypeParam) := do
  if ← onlyIf count.isNone coin then return []
  else
    let s ← get
    let least := count.getD 1
    let n ← sizeBetween least (max s.config.limits.maxTypeParams least)
    freshTypeParams (withVariance && s.language == .kotlin) forFunc n taken

/-- The kind of a new class. One that needs a field cannot be an interface. -/
def selectClassKind (needsField : Bool) : Gen ClassKind := do
  let kinds := if needsField then [ClassKind.regular, .abstract]
    else [.regular, .abstract, .interface]
  return (← pick kinds).getD .regular

end Gen

end ProgramGen

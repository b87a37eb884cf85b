import ProgramGen.Ty.Subtype
import ProgramGen.Random.Draw

/-!
# Type arguments at random

Arguments for the parameters of a generic class or function, drawn from a list of types: each within
the bound of its parameter, where the parameters before it already stand for their arguments. An
argument of a class may be projected where the class allows it.
-/

namespace ProgramGen

/-- Which projections of a type parameter are sound. -/
structure Projections where
  covariant : Bool
  contravariant : Bool
  deriving DecidableEq, Repr

/-- Sound projections by the name of the parameter. -/
abbrev VarianceChoices := List (String × Projections)

/-- Whether a type can be an argument at all: a type of objects, with its own arguments. -/
def Ty.isArgument (t : Ty) : Bool :=
  !t.isPrimitive && !t.isVoid && !t.isConstructor && !t.isBottom && !t.isWildcard

/-- The types that `p` may stand for once the parameters of `m` stand for their arguments. -/
def argumentCandidates (p : TypeParam) (types : List Ty) (m : Subst) : List Ty :=
  let bound := p.bound.map (Ty.subst m)
  types.filter fun t => t.isArgument && bound.all t.isSubtype

/-- Draw an argument for `p`. Where no type fits the bound itself is taken, if it is a type that can
be written down. -/
def pickArgument (p : TypeParam) (types : List Ty) (m : Subst) : Rand (Option Ty) := do
  match ← Rand.choose (argumentCandidates p types m) with
  | some t => return some t
  | none =>
    match p.bound.map (Ty.subst m) with
    | some b => return if b.isVariable || b.isConstructor then none else some b
    | none => return none

/-- Project an argument. In strict use the projection follows from what is sound, unless both are;
otherwise chance decides. -/
def projectArgument (t : Ty) (sound : Projections) (strict : Bool) : Rand Ty := do
  let variance ← match sound.covariant, sound.contravariant, strict with
    | true, false, true => pure Variance.covariant
    | false, true, true => pure .contravariant
    | true, true, _ =>
      pure ((← Rand.choose [Variance.covariant, .contravariant, .invariant]).getD .invariant)
    | true, false, false => if ← Rand.coin then pure .covariant else pure .invariant
    | false, true, false => if ← Rand.coin then pure .contravariant else pure .invariant
    | false, false, _ => pure .invariant
  return match variance with
    | .covariant => .wildcard .covariant (some t)
    | .contravariant => .wildcard .contravariant (some t)
    | .invariant => t

/-- Arguments for the remaining parameters of a class: what they stand for, and how they are
written. -/
def instantiateParams (types : List Ty) (fixed : Subst) (choices : VarianceChoices)
    (strict : Bool) : List TypeParam → Subst → List Ty → Rand (Option (List Ty × Subst))
  | [], m, args => return some (args, m)
  | p :: ps, m, args => do
    let argument ← match fixed.get? p with
      | some t => pure (some t)
      | none => pickArgument p types m
    match argument with
    | none => return none
    | some t =>
      let written ←
        -- A parameter that varies by declaration is not projected as well.
        match p.variance, choices.lookup p.name with
        | .invariant, some sound =>
          if t.isWildcard then pure t else projectArgument t sound strict
        | _, _ => pure t
      instantiateParams types fixed choices strict ps (m.insert p t) (args ++ [written])

/-- Apply a generic class to arguments drawn from `types`; the parameters that `fixed` binds keep
their binding. Also gives what each parameter stands for, without projection. -/
def TypeCtor.instantiate (c : TypeCtor) (types : List Ty) (fixed : Subst)
    (choices : VarianceChoices) (strict : Bool) : Rand (Option (Ty × Subst)) := do
  return (← instantiateParams types fixed choices strict c.params ∅ []).map fun (args, m) =>
    (c.apply args, m)

/-- Bind those type parameters of a function that `fixed` does not bind. -/
def instantiateFunction (types : List Ty) : List TypeParam → Subst → Rand (Option Subst)
  | [], m => return some m
  | p :: ps, m => do
    if m.contains p then instantiateFunction types ps m
    else
      match ← pickArgument p types m with
      | none => return none
      | some t => instantiateFunction types ps (m.insert p t)

end ProgramGen

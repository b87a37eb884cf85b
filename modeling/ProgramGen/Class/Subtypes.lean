import ProgramGen.Syntax.Basic
import ProgramGen.Ty.Unify

/-!
# Subtypes among classes

The known types that lie below a given type. A generic class is instantiated when its relation to
the target fixes its arguments, and stays without arguments when any will do.
-/

namespace ProgramGen

/-- The first supertype in `above` with the name of the target decides how the class is applied. -/
def subtypeFrom? (c : TypeCtor) (target : Ty) : List Ty → Option Ty
  | [] => none
  | s :: rest =>
    if s.name ≠ target.name then subtypeFrom? c target rest
    else if !s.hasVariables then
      if s.isSubtype target then some (.constructor c) else none
    else if target.hasWildcards then none
    else
      match target.unify? s with
      | none => none
      | some m =>
        if c.params.all m.contains then
          let t := c.apply (c.params.filterMap m.get?)
          if t.isSubtype target then some t else none
        else none

/-- A generic class as a subtype of the target. -/
def subtypeInstance? (c : TypeCtor) (target : Ty) : Option Ty :=
  if target.isTop then some (.constructor c)
  else if c.name = target.name then
    if target.isApplied && !target.hasWildcards then some target else none
  else subtypeFrom? c target (c.ownInstance.allSupertypes.drop 1)

/-- A class as a subtype of the target, if it is one. -/
def ClassDecl.subtypeOf? (c : ClassDecl) (target : Ty) : Option Ty :=
  if c.isGeneric then subtypeInstance? c.ctor target
  else if c.type.isSubtype target then some c.type else none

/-- The subtypes of a type among classes and other types, in their order. Without `withSelf` the
type itself is left out; with `concreteOnly`, abstract classes and interfaces. -/
def findSubtypes (target : Ty) (classes : List ClassDecl) (builtins : List Ty)
    (withSelf concreteOnly : Bool) : List Ty :=
  let fromClasses := classes.filterMap fun c =>
    if (concreteOnly && c.isAbstract) || (!withSelf && c.name == target.name) then none
    else c.subtypeOf? target
  let fromBuiltins := builtins.filter fun b =>
    !b.isConstructor && (withSelf || b != target) && b.isSubtype target
  fromClasses ++ fromBuiltins

end ProgramGen

import ProgramGen.Ty.Subtype

/-!
# Unification

Two types are made equal by binding type parameters on either side. The search goes through both
types at once, from left to right, and gives up at the first place where they differ, where a
parameter would need two types, or where a type is not within the bound of its parameter.
-/

namespace ProgramGen

namespace Subst

/-- Bind `p` to `t` as part of a unification. A parameter equals itself; a second binding has to
agree with the first; a new one has to be within the bound. -/
def bindTo? (m : Subst) (p : TypeParam) (t : Ty) : Option Subst :=
  if (match t with | .param q => q.name == p.name | _ => false) then some m
  else
    match m.get? p with
    -- Bindings are compared as they are, and not unified with one another.
    | some s => if s = t then some m else none
    | none =>
      match p.bound with
      | some b => if t.isSubtype (b.subst m) then some (m.insert p t) else none
      | none => some (m.insert p t)

mutual

/-- Extend `m` so that it makes the two types equal. -/
def unifyWith (m : Subst) : (expected actual : Ty) → Option Subst
  | e, .param q => m.bindTo? q e
  | .param p, a => m.bindTo? p a
  | .applied c xs, .applied d ys =>
    if c.name = d.name ∧ xs.length = ys.length then unifyListWith m xs ys else none
  | .wildcard v b, .wildcard w b' =>
    if v = w then
      match b, b' with
      | some x, some y => unifyWith m x y
      | none, none => some m
      | _, _ => none
    else none
  | e, a => if e = a then some m else none

def unifyListWith (m : Subst) : (expected actual : List Ty) → Option Subst
  | x :: xs, y :: ys =>
    match unifyWith m x y with
    | some m' => unifyListWith m' xs ys
    | none => none
  -- Lists that end together, for the lengths are compared before.
  | _, _ => some m

end

end Subst

/-- The substitution that makes the two types equal, if there is one. -/
def Ty.unify? (expected actual : Ty) : Option Subst := Subst.unifyWith ∅ expected actual

end ProgramGen

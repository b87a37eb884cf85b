import ProgramGen.Catalog.Basic
import ProgramGen.Scope.Context
import ProgramGen.Ty.Instantiate

/-!
# Inheritance

What a class inherits without implementing it, which interfaces a closure can implement, and which
projections of a class's parameters are sound.
-/

namespace ProgramGen

/-! ## Abstract members -/

/-- Add an inherited member; of one name the first stays. -/
def addInherited (out : List (FuncDecl × Subst)) (x : FuncDecl × Subst) :
    List (FuncDecl × Subst) :=
  if out.any (·.1.name == x.1.name) then out else out ++ [x]

/-- Let a class's own function take the place of what it inherits under that name; only if it is
abstract, it is left to be implemented. -/
def addOwn (view : Subst) (out : List (FuncDecl × Subst)) (f : FuncDecl) :
    List (FuncDecl × Subst) :=
  let out := out.filter (·.1.name != f.name)
  if f.isAbstract then out ++ [(f, view)] else out

/-- The abstract members of a type, found by climbing at most `steps` classes. -/
def abstractMembersWithin (ctx : Context) : Nat → Ty → List (FuncDecl × Subst)
  | 0, _ => []
  | steps + 1, t =>
    match ctx.globalClass? t.name with
    | none => []
    | some c =>
      let view := t.argMap
      let inherited := c.supers.foldl
        (fun out s => (abstractMembersWithin ctx steps (s.ty.subst view)).foldl addInherited out) []
      -- Of one name the first superclass decides, and the class itself over all of them.
      c.funcs.foldl (addOwn view) inherited

/-- How many superclass links `abstractMembers` follows. -/
def maxInheritance : Nat := 32

/-- The functions that a type leaves unimplemented, its own and inherited ones, each with the
substitution that views its signature through the type. -/
def abstractMembers (ctx : Context) (t : Ty) : List (FuncDecl × Subst) :=
  abstractMembersWithin ctx (maxInheritance + 1) t

/-! ## Interfaces of one function -/

/-- The only abstract function of an interface without fields, if it is not generic. -/
def samFunction? (ctx : Context) (t : Ty) : Option (FuncDecl × Subst) :=
  let isClassType := match t with
    | .simple .. => true
    | .applied c _ => !c.builtin
    | _ => false
  if !isClassType then none
  else
    match ctx.globalClass? t.name with
    | none => none
    | some c =>
      if !c.isInterface || !c.fields.isEmpty then none
      else
        match abstractMembers ctx t with
        | [(f, m)] => if f.isGeneric then none else some (f, m)
        | _ => none

/-- Whether a closure can implement the type. -/
def isSam (ctx : Context) (t : Ty) : Bool := (samFunction? ctx t).isSome

/-- The function type of the closures that implement the type. -/
def samSignature? (ctx : Context) (l : Language) (t : Ty) : Option Ty :=
  match samFunction? ctx t with
  | none => none
  | some (f, m) =>
    let params := f.paramTypes.map (Ty.subst m)
    let ret := f.ret.subst m
    if params.any Ty.hasWildcards || ret.hasWildcards then none
    else some (l.functionType params ret)

/-! ## Projections -/

/-- Whether a type mentions a variable of the given name. -/
def Ty.mentions (t : Ty) (name : String) : Bool := t.typeVars.any (·.name == name)

/-- The sound projections of one parameter: covariant if it goes into no method and no field that
changes, contravariant if it comes out of no method and no field. -/
def ClassDecl.projections (c : ClassDecl) (name : String) : Projections :=
  let inParams := c.funcs.any fun f => f.params.any (·.ty.mentions name)
  let inReturns := c.funcs.any (·.ret.mentions name)
  let inFields := c.fields.any (·.ty.mentions name)
  let inMutableFields := c.fields.any fun f => !f.isFinal && f.ty.mentions name
  ⟨!inParams && !inMutableFields, !inReturns && !inFields⟩

/-- The sound projections of all parameters of a class. -/
def ClassDecl.varianceChoices (c : ClassDecl) : VarianceChoices :=
  c.typeParams.foldl
    (fun out p =>
      if (out.lookup p.name).isSome then out else out ++ [(p.name, c.projections p.name)]) []

end ProgramGen

import ProgramGen.Proofs.Program.Discipline

/-!
# Inheritance in a program

Which member of a name a type inherits from the nearest class above it, and what it is for a class to
override members faithfully, to have consistent superclasses, and to be complete.
-/

namespace ProgramGen

variable {α : Type}

/-- The class `d'` is a superclass of `d`. -/
def Context.IsSuper (C : Context) (d d' : ClassDecl) : Prop :=
  d' ∈ C.programClasses ∧ ∃ sup ∈ d.supers, d'.name = sup.ty.name

/-- The nearest class from a type upwards that has a member of the name has `a`; `m` is how the
member is seen through the type: the arguments of the superclasses on the way, one put into the
other. -/
inductive Context.Inherits (c : Context) (members : ClassDecl → List α) (name : α → String)
    (n : String) : Ty → α → Subst → Prop where
  | here {t d a} (hd : d ∈ c.programClasses) (hname : d.name = t.name) (ha : a ∈ members d)
      (hn : name a = n) : Inherits c members name n t a t.argMap
  | above {t d sup a m} (hd : d ∈ c.programClasses) (hname : d.name = t.name)
      (hnone : ∀ b ∈ members d, name b ≠ n) (hsup : sup ∈ d.supers)
      (h : Inherits c members name n (sup.ty.subst t.argMap) a m) : Inherits c members name n t a m

/-- The nearest function of the name above a class. -/
def Context.InheritsFunc (c : Context) (d : ClassDecl) (n : String) (g : FuncDecl) (m : Subst) : Prop :=
  ∃ sup ∈ d.supers, c.Inherits ClassDecl.funcs FuncDecl.name n sup.ty g m

/-- The nearest field of the name above a class. -/
def Context.InheritsField (c : Context) (d : ClassDecl) (n : String) (g : FieldDecl) (m : Subst) : Prop :=
  ∃ sup ∈ d.supers, c.Inherits ClassDecl.fields FieldDecl.name n sup.ty g m

/-- A function of a class overrides the nearest one of its name: that one is not final, and seen from
the class it has the same signature. -/
def Context.OverridesFunc (c : Context) (d : ClassDecl) (f : FuncDecl) : Prop :=
  ∃ g m, c.InheritsFunc d f.name g m ∧ g.isFinal = false ∧
    f.typeParams.length = g.typeParams.length ∧
    f.paramTypes = g.paramTypes.map (Ty.subst m) ∧ f.ret = g.ret.subst m

/-- A field of a class overrides the nearest one of its name: that one can be overridden, is final or
not like the field, and seen from the class it has the same type. -/
def Context.OverridesField (c : Context) (d : ClassDecl) (f : FieldDecl) : Prop :=
  ∃ g m, c.InheritsField d f.name g m ∧ g.canOverride ∧ f.ty = g.ty.subst m ∧
    f.isFinal = g.isFinal

/-- A superclass that the class can have: not final, an interface for an interface, and given a
constructor argument for each of its fields unless it is an interface. -/
structure SuperDecl.Suits (sup : SuperDecl) (c d : ClassDecl) : Prop where
  name : d.name = sup.ty.name
  object : sup.ty.isBuiltin = false
  open_ : d.isFinal = false
  interface : c.isInterface → d.isInterface
  args : sup.args.map List.length = if d.isInterface then none else some d.fields.length

/-- A class has at most one superclass, and every member that says so overrides one of it. A regular
class implements all of its functions; a function that is not implemented can be overridden. -/
structure Context.Keeps (c : Context) (d : ClassDecl) : Prop where
  single : d.supers.length ≤ 1
  funcs : ∀ f ∈ d.funcs, f.isOverride → c.OverridesFunc d f
  fields : ∀ f ∈ d.fields, f.isOverride → c.OverridesField d f
  implemented : d.kind = .regular → ∀ f ∈ d.funcs, f.isAbstract = false
  extensible : ∀ f ∈ d.funcs, f.isAbstract → f.isFinal = false

end ProgramGen

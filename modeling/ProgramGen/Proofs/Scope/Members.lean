import ProgramGen.Scope.Context
import ProgramGen.Syntax.Basic
import ProgramGen.Text.Uppercase
import Mathlib.Data.List.Basic

/-!
# The two records of a member

A member of a class is recorded twice: in the scope of the class, and in the list of members that the
class carries. The records are in step if the lists of all classes are what their scopes bind.
-/

namespace ProgramGen

namespace Context

/-- The fields that a scope binds. -/
def fieldsIn (c : Context) (ns : Namespace) : List FieldDecl :=
  (c.declarations ns).filterMap fun | .field f => some f | _ => none

/-- The functions that a scope binds. -/
def funcsIn (c : Context) (ns : Namespace) : List FuncDecl :=
  (c.declarations ns).filterMap fun | .func f => some f | _ => none

end Context

/-- A field or a function, as a class has them. -/
def Decl.isMember : Decl → Bool
  | .field _ => true
  | .func _ => true
  | _ => false

/-- The members of a scope are all that matters to its fields and functions. -/
theorem Context.members_eq_of_filter {c c' : Context} {ns : Namespace}
    (h : (c'.declarations ns).filter Decl.isMember = (c.declarations ns).filter Decl.isMember) :
    c'.fieldsIn ns = c.fieldsIn ns ∧ c'.funcsIn ns = c.funcsIn ns := by
  have hfilter : ∀ {α : Type} (sel : Decl → Option α), (∀ d, d.isMember = false → sel d = none) →
      ∀ ds : List Decl, ds.filterMap sel = (ds.filter Decl.isMember).filterMap sel := by
    intro α sel hsel ds
    rw [List.filterMap_filter]
    refine List.filterMap_congr fun d _ => ?_
    cases hd : d.isMember
    · rw [hsel d hd, if_neg (by simp)]
    · rw [if_pos rfl]
  unfold Context.fieldsIn Context.funcsIn
  constructor
  · rw [hfilter _ (fun d hd => by cases d <;> first | rfl | cases hd) (c'.declarations ns), h, ← hfilter]
    exact fun d hd => by cases d <;> first | rfl | cases hd
  · rw [hfilter _ (fun d hd => by cases d <;> first | rfl | cases hd) (c'.declarations ns), h, ← hfilter]
    exact fun d hd => by cases d <;> first | rfl | cases hd

/-- What of a declaration stays as it is registered: not the body of a function, and not the members
of a class. -/
def Decl.outline : Decl → Decl
  | .func f => .func { f with body := f.body.map fun _ => default }
  | .cls c => .cls { c with fields := [], funcs := [] }
  | d => d

/-- A class without its members. -/
def ClassDecl.header (c : ClassDecl) : ClassDecl := { c with fields := [], funcs := [] }

/-- The class with one more field or function. -/
def ClassDecl.withMember (c : ClassDecl) : Decl → ClassDecl
  | .field f => { c with fields := c.fields ++ [f] }
  | .func f => { c with funcs := c.funcs ++ [f] }
  | _ => c

/-- The class with the function in the place of what was registered of it. -/
def ClassDecl.withFunc (c : ClassDecl) (f : FuncDecl) : ClassDecl :=
  { c with funcs := Context.modifyFirst (·.name == f.name) (fun _ => f) c.funcs }

/-- The scope of a class. -/
def ClassDecl.scope (c : ClassDecl) : Namespace := Namespace.global.child c.name

/-- The fields and functions of every class are those that its scope binds, in the order in which
they were registered. -/
def Context.InStep (c : Context) : Prop :=
  ∀ d ∈ c.classes .global false, d.fields = c.fieldsIn d.scope ∧ d.funcs = c.funcsIn d.scope

/-- What holds of a symbol table even after a failure: classes are named in uppercase, and the records
of their members are in step. -/
structure Context.Kept (c : Context) : Prop where
  inStep : c.InStep
  named : ∀ d ∈ c.classes .global false, startsUppercase d.name

end ProgramGen

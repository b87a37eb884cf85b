import ProgramGen.Proofs.Program.Shape

/-!
# Disciplined programs

What every expression of a program keeps to: it reads and assigns only what its place lets it, and what
it reads is in sight; it makes instances of classes that have them, with an argument for each field, and
calls functions with an argument for each parameter; its closures implement interfaces that closures can
implement, and it is well formed.
-/

namespace ProgramGen

/-- Every class of a symbol table. -/
def Context.programClasses (c : Context) : List ClassDecl := c.classes .global false

/-- Some class has a field of the name, and no field of the name is final. -/
def Context.HasMutableField (c : Context) (name : String) : Prop :=
  (∃ d ∈ c.programClasses, ∃ f ∈ d.fields, f.name = name) ∧
    ∀ d ∈ c.programClasses, ∀ f ∈ d.fields, f.name = name → f.isFinal = false

/-- The expression itself, its parts apart, reads no changing local of the code around its closure
and assigns only what can change: a variable that the place may assign, or a field. -/
def Expr.Accesses (c : Context) (v : Visibility) : Expr → Prop
  | .var n _ => v.access? n ≠ some .outer
  | .instanceOf n _ _ => v.access? n ≠ some .outer
  | .call none n _ _ _ true => v.access? n ≠ some .outer
  | .assign none n _ => ∃ a, v.access? n = some a ∧ a.isTarget
  | .step n _ => ∃ a, v.access? n = some a ∧ a.isTarget
  | .assign (some _) n _ => c.HasMutableField n
  | _ => True

/-! ## Names -/

/-- The scope of the body of a loop. -/
def Namespace.IsLoop (ns : Namespace) : Prop :=
  ∃ (parent : Namespace) (k : Nat), ns = parent.child ("loop_" ++ toString k)

/-- The body of some loop declares a variable of the name. -/
def Context.LoopLocal (c : Context) (n : String) : Prop :=
  ∃ ns : Namespace, ns.IsLoop ∧ ∃ x : VarDecl, .var x ∈ c.declarations ns ∧ x.name = n

/-- The name is in sight, or the body of some loop declares it. -/
def Context.Resolves (c : Context) (v : Visibility) (n : String) : Prop :=
  (∃ a, v.access? n = some a) ∨ c.LoopLocal n

/-- The expression itself, its parts apart, reads variables that are in sight, but for those that the
body of a loop declares: there the last statements may read what is declared only while they are made.
What it calls as a value is such a variable, or a nested function. -/
def Expr.Reads (c : Context) (v : Visibility) : Expr → Prop
  | .var n _ => n = "this" ∨ c.Resolves v n
  | .instanceOf n _ _ => c.Resolves v n
  | .call none n _ _ _ true => c.Resolves v n ∨ ∃ ns f, .func f ∈ c.declarations ns ∧ f.kind = .nested ∧ f.name = n
  | _ => True

/-! ## Calls -/

/-- A call with these arguments has one for each parameter of the function, apart from those that have
default values in Kotlin, and a type argument for each type parameter, or none at all. -/
structure FuncDecl.Takes (f : FuncDecl) (l : Language) (typeArgs : List Ty) (args : List Expr) : Prop where
  args : args.length = (f.params.filter fun p => !(l == .kotlin && p.defaultValue.isSome)).length
  typeArgs : typeArgs.length = f.typeParams.length ∨ typeArgs = []

/-- What a call goes to: a declared function, a method of a builtin type, a method of an iterator or
of what gives one, or a variable. -/
inductive Context.Calls (c : Context) (l : Language) : Option Expr → String → List Ty → List Expr → Prop where
  | declared {ns f r typeArgs args} (hf : .func f ∈ c.declarations ns) (h : f.Takes l typeArgs args) :
    Calls c l r f.name typeArgs args
  | builtin {k b r args} (hb : b ∈ l.methods k) (h : args.length = b.params.length) :
    Calls c l (some r) b.name [] args
  | iteration {r n} (h : n ∈ ["iterator", "hasNext", "next"]) : Calls c l (some r) n [] []
  | value {ns d args} (hd : d ∈ c.declarations ns) (hkind : d.kind = .var) : Calls c l none d.name [] args

/-! ## Instances -/

/-- The class as the type of an object in its own body. -/
def ClassDecl.ownType (c : ClassDecl) : Ty := if c.isGeneric then c.ctor.ownInstance else c.type

/-- A closure of the function type `signature` implements the type `t`: it is of an interface of one
function, which it also is in its own body, and that function has the signature. -/
structure Context.ImplementedBy (c : Context) (l : Language) (t signature : Ty) : Prop where
  interface : ∃ d ∈ c.programClasses, d.name = t.name ∧ d.kind = .interface ∧ isSam c d.ownType
  isSam : isSam c t
  signature : samSignature? c l t = some signature

/-- The expression itself, if it makes an instance, makes one of the top type, or of a regular class
with an argument for each of its fields; if it is a closure, it can implement what it is used as; and if
it is a call, it has the arguments of what it goes to. -/
def Expr.Constructs (c : Context) (l : Language) : Expr → Prop
  | .new t args =>
    (t.isTop ∧ args = []) ∨
      ∃ d ∈ c.programClasses, d.name = t.name ∧ t.isBuiltin = false ∧ d.kind = .regular ∧
        args.length = d.fields.length
  | .lambda f => ∀ t ∈ f.samTarget, c.ImplementedBy l t f.signature
  | .call r n typeArgs args _ _ => c.Calls l r n typeArgs args
  | _ => True

/-- An expression of a program in the language `l` keeps to the discipline of variables and instances
and is well formed, with no root deeper than `n`, and so are all its parts. -/
inductive Expr.Disciplined (c : Context) (l : Language) (n : Nat) : Visibility → Expr → Prop where
  | mk {v e} (accesses : e.Accesses c v) (reads : e.Reads c v) (constructs : e.Constructs c l)
      (shaped : e.Shaped l n) (parts : ∀ x ∈ e.places v, Disciplined c l n x.1 x.2) : Disciplined c l n v e

/-- Where all declarations of the top level are disciplined, so are all expressions. -/
theorem Program.Contains.disciplined {p : Program} {n : Nat} {v : Visibility} {e : Expr}
    (htop : ∀ d ∈ p.topLevel, ∀ x ∈ d.places p.variables, x.2.Disciplined p.context p.language n x.1)
    (h : p.Contains v e) : e.Disciplined p.context p.language n v := by
  induction h with
  | top hd hx => exact htop _ hd _ hx
  | part _ hx ih =>
    obtain ⟨-, -, -, -, hparts⟩ := ih
    exact hparts _ hx

end ProgramGen

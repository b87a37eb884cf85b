import ProgramGen.Proofs.Generation.Depth
import ProgramGen.Proofs.Names.Spent
import ProgramGen.Proofs.Program.Variance
import ProgramGen.Proofs.Scope.Members
import ProgramGen.Proofs.Scope.Namespace

/-!
# Sound sessions

What holds of a session from its start to its end, and how it grows. Names that were given are spent;
what has one name is one declaration, or overrides it. The types of all declarations are plain.
Classes have finished superclasses and keep what they inherit; a class that is finished does not
change any more. All expressions keep to the discipline of variables and instances, whatever the
session grows into.
-/

namespace ProgramGen

/-! ## Declarations -/

/-- The names that a declaration takes, those of a function's parameters among them. -/
def Decl.names : Decl → List String
  | .func f => f.name :: f.params.map (·.name)
  | d => [d.name]

/-- Two declarations of one name, one of which overrides the other or narrows it in a branch. -/
def Decl.Agrees : Decl → Decl → Prop
  | .func _, .func _ => True
  | .param _, .param _ => True
  | .field f, .field g => f.isFinal = g.isFinal
  | .var v, .var w => v.isFinal ∧ w.isFinal
  | _, _ => False

/-- The types that a declaration states are plain; a function may return nothing. Those of a closure are
not requested again: it is enough that they are formed. -/
def Decl.TypesPlain : Decl → Prop
  | .var v => v.ty.Plain
  | .param p => p.ty.Plain
  | .field f => f.ty.Plain
  | .func f => (∀ p ∈ f.params, p.ty.Plain) ∧ f.ret.Requested ∧
    ∀ p ∈ f.typeParams, (Ty.param p).Plain
  | .cls _ => True
  | .lambda l => ∀ t ∈ l.types, t.Formed

theorem Decl.TypesPlain.formed {d : Decl} (h : d.TypesPlain) (hclass : d.kind ≠ .cls) : ∀ t ∈ d.stated, t.Formed := by
  intro t ht
  cases d with
  | func f =>
    obtain ⟨hparams, hret, htypeParams⟩ := h
    rcases List.mem_append.mp ht with ht | ht
    · rcases List.mem_cons.mp ht with rfl | ht
      · exact hret.formed
      · obtain ⟨p, hp, rfl⟩ := List.mem_map.mp ht
        exact (hparams p hp).formed
    · obtain ⟨p, hp, rfl⟩ := List.mem_map.mp ht
      exact (htypeParams p hp).formed
  | cls => exact absurd rfl hclass
  | lambda => exact h t ht
  | _ => exact List.mem_singleton.mp ht ▸ Ty.Plain.formed h

/-! ## Type parameters of functions -/

/-- The name has the mark of a function's type parameter. -/
def IsMarked (n : String) : Prop := ∃ letter, n = "F_" ++ letter

/-- The type mentions a name where a view through a class leaves it: not in the bound of a parameter
of the class. -/
inductive Ty.Uses (n : String) : Ty → Prop where
  | here {v b} : Uses n (.param ⟨n, v, b⟩)
  | bound {q b} (hq : IsMarked q.name) (hb : q.bound = some b) (h : Uses n b) : Uses n (.param q)
  | wildcard {v b} (h : Uses n b) : Uses n (.wildcard v (some b))
  | arg {c args a} (ha : a ∈ args) (h : Uses n a) : Uses n (.applied c args)

/-- The bounds of class parameters mention class parameters only. -/
def Ty.Tidy (t : Ty) : Prop :=
  ∀ q, t.Occurs q → ¬IsMarked q.name → ∀ p, (Ty.param q).Occurs p → ¬IsMarked p.name

/-- A function that can be overridden with the same type parameters: each of them is marked, and the
signature uses it. -/
structure FuncDecl.IsMethod (f : FuncDecl) : Prop where
  marked : ∀ p ∈ f.typeParams, IsMarked p.name
  distinct : (f.typeParams.map (·.name)).Nodup
  used : ∀ p ∈ f.typeParams, ∃ t ∈ f.ret :: f.paramTypes, t.Uses p.name
  params : (f.params.map (·.name)).Nodup

/-- The functions are called alike. -/
structure FuncDecl.SameHead (f g : FuncDecl) : Prop where
  name : g.name = f.name
  params : g.params = f.params
  typeParams : g.typeParams = f.typeParams
  kind : g.kind = f.kind

/-- The scope of a function or closure, of a branch or a loop: what it declares stands in a block. -/
structure Namespace.IsLocal (ns : Namespace) : Prop where
  ne_global : ns ≠ .global
  className?_eq : ns.className? = none

namespace Session

/-! ## What is bound -/

/-- What a scope declares. -/
abbrev decls (s : Session) (ns : Namespace) : List Decl := s.context.declarations ns

/-- The name is taken by some declaration. -/
def Taken (s : Session) (n : String) : Prop := ∃ ns, ∃ d ∈ s.decls ns, n ∈ d.names

/-- A scope whose names are all spent, as those of all scopes that are in use. -/
def Opened (s : Session) (ns : Namespace) : Prop := ∀ n ∈ ns.segments, s.Spent n

/-- The scope binds a changing variable of the name. -/
def HasMutable (s : Session) (ns : Namespace) (n : String) : Prop :=
  ∃ v : VarDecl, .var v ∈ s.decls ns ∧ v.name = n ∧ v.isFinal = false

/-- The class has a changing field of the name. -/
def MutableFieldOf (s : Session) (className n : String) : Prop :=
  ∃ c ∈ s.classes, c.name = className ∧ ∃ f ∈ c.fields, f.name = n ∧ f.isFinal = false

/-- Some class has a field of the name, final or not. -/
def HasField (s : Session) (n : String) (isFinal : Bool) : Prop :=
  ∃ c ∈ s.classes, ∃ f ∈ c.fields, f.name = n ∧ f.isFinal = isFinal

/-- Some changing variable or field has the name. -/
def IsMutable (s : Session) (n : String) : Prop := (∃ ns, s.HasMutable ns n) ∨ s.HasField n false

/-- The scope or one around it binds a variable, parameter or field of the name. Of what a local variable of
the scope itself is named, that is said only if its `locals` count. -/
def InSight (s : Session) (ns : Namespace) (locals : Prop) (n : String) : Prop :=
  ∃ m ∈ ns.lineage, ∃ d ∈ s.decls m, d.kind = .var ∧ d.name = n ∧ (m = ns → locals ∨ ∃ p, d = .param p)

/-- A changing variable of the top level, or a changing field of the class around a scope. -/
def Shared (s : Session) (ns : Namespace) (n : String) : Prop :=
  s.HasMutable .global n ∨ ∃ className rest, ns.segments = Namespace.globalSegment :: className :: rest ∧
    startsUppercase className ∧ s.MutableFieldOf className n

/-! ## Later sessions -/

/-- What a later session keeps that matters to the expressions made so far: what changes goes on to
change, and no name that was given is used for a variable or field of the other sort. -/
structure Leads (s s' : Session) : Prop where
  language : s'.language = s.language
  config : s'.config = s.config
  spent : ∀ n, s.Spent n → s'.Spent n
  keeps : ∀ ns n, s.HasMutable ns n → s'.HasMutable ns n
  mutables : ∀ ns n, s.Spent n → s'.HasMutable ns n → s.HasMutable ns n
  members : ∀ c n, s.MutableFieldOf c n → s'.MutableFieldOf c n
  fields : ∀ n b, s.Spent n → s'.HasField n b → s.HasField n b
  finished : ∀ c ∈ s.classes, s.isUnfinished c.name = false →
    c ∈ s'.classes ∧ s'.isUnfinished c.name = false
  distinct : s.context.DistinctClasses → s'.context.DistinctClasses
  inSight : ∀ ns locals n, s.InSight ns locals n → s'.InSight ns locals n
  loopLocals : ∀ n, s.context.LoopLocal n → s'.context.LoopLocal n
  funcs : ∀ ns f, .func f ∈ s.decls ns → ∃ g, .func g ∈ s'.decls ns ∧ f.SameHead g

/-- What is asked of a place: that it sees the changing local variables that are to be assigned there, and
whether it also sees, to be read, the local variables of its scope itself. -/
structure Demand where
  targets : String → Prop
  locals : Prop

/-- The first asks for no more than the second. -/
structure Demand.Below (T T' : Demand) : Prop where
  targets : ∀ n, T.targets n → T'.targets n
  locals : T.locals → T'.locals

/-- `v` is what a place may see in the scope `ns`, where `root` is the innermost closure: everything
that changes is known for what it is, and all of `targets` is seen. -/
structure Admits (s : Session) (ns : Namespace) (root : Option Namespace) (targets : String → Prop)
    (v : Visibility) : Prop where
  constant : ∀ n, (n, .constant) ∈ v → ¬s.IsMutable n
  own : ∀ n, (n, .own) ∈ v → ∃ m, s.HasMutable m n ∧ m.isGlobal = false ∧ ns.isWithin m
  outer : ∀ n, (n, .outer) ∈ v → ∃ m r, s.HasMutable m n ∧ m.isGlobal = false ∧ ns.isWithin m ∧
    root = some r ∧ m.isWithin r = false
  targets : ∀ n, targets n → ∃ a, (n, a) ∈ v

/-- The limit of depth. -/
abbrev maxDepth (s : Session) : Nat := s.config.limits.maxDepth

/-- All of `names` is in sight, but for what the body of a loop declares. -/
def Shows (s : Session) (names : String → Prop) (v : Visibility) : Prop := ∀ n, names n → s.context.Resolves v n

/-- In whatever session this one grows into, the expressions are disciplined at a place of the scope
`ns` that sees all shared variables, what can be read there, and what `T` asks for besides. -/
def Fits (s : Session) (ns : Namespace) (root : Option Namespace) (T : Demand)
    (places : Visibility → List (Visibility × Expr)) : Prop :=
  ∀ s', s.Leads s' → ∀ v, s'.Admits ns root (fun n => s.Shared ns n ∨ T.targets n) v →
    s'.Shows (s.InSight ns T.locals) v →
    ∀ x ∈ places v, x.2.Disciplined s'.context s'.language (rootDepth s'.maxDepth) x.1

/-- No variables but the shared ones are assigned; those of the scope are read. -/
def noTargets : Demand := ⟨fun _ => False, True⟩

/-- No local variables of the scope are used at all. -/
def noLocals : Demand := ⟨fun _ => False, False⟩

/-- The changing local variables that can be assigned in the current scope. -/
def LocalTargets (s : Session) (n : String) : Prop :=
  ∃ m, s.HasMutable m n ∧ m.isGlobal = false ∧ m ∈ s.frame.ns.lineage ∧
    ∀ r ∈ s.frame.captureRoot, m.isWithin r

/-- Those among them that a scope around the current one declares. -/
def OuterTargets (s : Session) (n : String) : Prop :=
  ∃ m, s.HasMutable m n ∧ m.isGlobal = false ∧ m ∈ s.frame.ns.lineage ∧ m ≠ s.frame.ns ∧
    ∀ r ∈ s.frame.captureRoot, m.isWithin r

/-- What a statement for the current scope asks for. -/
def statements (s : Session) : Demand := ⟨s.LocalTargets, True⟩

/-- What a statement asks for that assigns nothing that the current scope declares. -/
def endings (s : Session) : Demand := ⟨s.OuterTargets, True⟩

/-- What a body of the current scope asks for, which has the local variables of the scope in it. -/
def bodies (s : Session) : Demand := ⟨s.OuterTargets, False⟩

/-- The expression is disciplined at the current place. -/
def FitsHere (s : Session) (T : Demand) (e : Expr) : Prop :=
  s.Fits s.frame.ns s.frame.captureRoot T fun v => [(v, e)]

/-- The expression can stand at the current place as a value, at most `k` deep. -/
structure Stands (s : Session) (T : Demand) (k : Nat) (e : Expr) : Prop where
  fits : s.FitsHere T e
  depth : e.depth ≤ k
  value : s.language = .java → e.isValue

/-- Declarations have a place in the current scope: in a body, and in Java in no branch of a
conditional. -/
structure HasPlace (s : Session) : Prop where
  body : s.frame.inFuncBody
  branch : s.language = .java → s.frame.inValueBranch = false

/-- The declaration can stand in the block of the current scope. -/
structure DeclFits (s : Session) (d : Decl) : Prop where
  kind : d.kind ≠ .cls
  fits : s.Fits s.frame.ns s.frame.captureRoot noTargets d.places
  depth : ∀ v, d = .var v → v.init.depth ≤ initDepth s.maxDepth s.frame.depth
  whole : d.IsWhole
  place : s.HasPlace

/-- No root of the declaration is too deep, and in Java it has values where it needs them. -/
abbrev Shapes (s : Session) (d : Decl) : Prop := d.Shaped s.language (rootDepth s.maxDepth)

/-- The root is not too deep, and in Java it has a value. -/
structure ShapesRoot (s : Session) (e : Expr) : Prop where
  depth : e.depth ≤ rootDepth s.maxDepth
  value : s.language = .java → e.isValue

/-- The classes that are there for others to extend: finished ones that are not final. -/
def IsOpen (s : Session) (d : ClassDecl) : Prop :=
  d ∈ s.classes ∧ s.isUnfinished d.name = false ∧ d.isFinal = false

/-! ## Classes -/

/-- What holds of a class from its registration on, and once it is finished. -/
structure ClassOk (s : Session) (c : ClassDecl) : Prop where
  named : startsUppercase c.name
  plain : c.ctor.IsPlain
  distinct : (c.typeParams.map (·.name)).Nodup
  finalKind : c.isFinal → c.kind = .regular
  steady : ∀ p ∈ c.typeParams, ∀ b ∈ p.bound, ∀ q, b.Occurs q → q ∈ c.typeParams ∧ q.variance = .invariant
  telescoped : Telescoped [] c.typeParams
  keeps : s.context.Keeps c
  supers : ∀ sup ∈ c.supers, ∃ d ∈ s.classes, s.isUnfinished d.name = false ∧ sup.Suits c d
  methods : ∀ f ∈ c.funcs, f.IsMethod
  complete : s.isUnfinished c.name = false → c.kind = .regular →
    abstractMembers s.context c.ownType = []
  varies : c.isGeneric ∨ c.isFinal = false →
    c.Respects ∧ ∀ sup ∈ c.supers, ∃ d, s.IsOpen d ∧ sup.ty.IsOf d
  superArgs : s.Fits .global none noTargets fun v => c.superArgs.map (v, ·)
  superRoots : ∀ e ∈ c.superArgs, s.ShapesRoot e
  bodies : ∀ f ∈ c.funcs, s.Fits c.scope none noTargets (f.places ·)

end Session

/-! ## Sound sessions -/

open Session in
/-- What is registered: each scope binds a name once for each kind, names are spent, and what has one
name is one declaration or agrees. Only methods, fields and closures stand in classes. -/
structure Session.Registered (s : Session) : Prop where
  opened : ∀ ns, s.context.scope ns ≠ .empty → s.Opened ns
  taken : ∀ n, s.Taken n → s.Spent n
  keys : ∀ ns, ((s.decls ns).map fun d => (d.kind, d.name)).Nodup
  unique : ∀ ns d ns' d', d ∈ s.decls ns → d' ∈ s.decls ns' → d.name = d'.name →
    (ns = ns' ∧ d.kind = d'.kind) ∨ d.Agrees d'
  params : ∀ ns f, .func f ∈ s.decls ns → ∀ p ∈ f.params, ∀ ns' d, d ∈ s.decls ns' →
    d.name = p.name → ∃ q, d = .param q
  classScopes : ∀ ns, ns.className? ≠ none → ∀ d ∈ s.decls ns, d.kind = .var → ∃ f, d = .field f
  types : ∀ ns, ∀ d ∈ s.decls ns, d.TypesPlain

open Session in
/-- What holds of a session at all times. -/
structure Session.Sound (s : Session) : Prop extends s.Registered where
  pool : s.source.pool.Sound
  rooted : s.frame.ns.segments.head? = some Namespace.globalSegment
  here : s.Opened s.frame.ns
  body : s.frame.inFuncBody → s.frame.ns.className? = none ∧
    ∀ r ∈ s.frame.captureRoot, s.frame.ns.isWithin r
  root : s.frame.ns = .global ∨ s.frame.ns.className? ≠ none → s.frame.captureRoot = none
  making : ∀ n ∈ s.unfinished, s.Spent n
  notThis : ∀ m, ¬s.HasMutable m "this"
  members : s.context.InStep
  fields : ∀ ns f, .field f ∈ s.decls ns → ∃ c ∈ s.classes, ns = c.scope
  globalTypes : (s.context.scope .global).types = []
  ownTypes : ∀ c ∈ s.classes, (s.context.scope c.scope).types = c.typeParams
  typeParams : ∀ ns, ∀ p ∈ (s.context.scope ns).types, (Ty.param p).Plain ∧
    (ns.className? ≠ none → ¬IsMarked p.name ∧ (Ty.param p).Tidy)
  classes : ∀ c ∈ s.classes, s.ClassOk c
  ordered : ∀ before c after, s.classes = before ++ c :: after →
    ∀ sup ∈ c.supers, ∃ d ∈ before, d.name = sup.ty.name
  trees : ∀ d ∈ s.decls .global, d.kind ≠ .cls → s.Fits .global none noTargets d.places
  shaped : ∀ ns, ∀ d ∈ s.decls ns, d.kind ≠ .cls → s.Shapes d

/-! ## Growth -/

/-- What a computation may add to: scopes that are in use; classes, functions and closures that are in the
making, which get members and parameters; and names that are reserved for it. -/
structure Permit where
  scopes : Namespace → Prop
  making : Namespace → Prop
  names : String → Prop

/-- Seen from a session, the first permit allows no more than the second. -/
structure Session.Allows (s : Session) (P' P : Permit) : Prop where
  scopes : ∀ ns, s.Opened ns → ns ≠ .global → P'.scopes ns → P.scopes ns
  making : ∀ ns, s.Opened ns → P'.making ns → P.making ns
  names : ∀ n, s.Spent n → P'.names n → P.names n ∨ s.Taken n

/-- What an expression may add to beside the top level: the current scope. -/
def Permit.within (ns : Namespace) : Permit := ⟨(· = ns), fun _ => False, fun _ => False⟩

/-- What the parameters of a new scope add to: the scope, which is in the making. -/
def Permit.opening (ns : Namespace) : Permit := ⟨(· = ns), (· = ns), fun _ => False⟩

open Session in
/-- How a session grows: nothing is lost, and nothing that is in use changes but what is permitted. -/
structure Session.Extends (P : Permit) (s s' : Session) : Prop extends s.Leads s' where
  frame : s'.frame = s.frame
  unfinished : s'.unfinished = s.unfinished
  decls : ∀ ns, (s.decls ns).map Decl.outline <+: (s'.decls ns).map Decl.outline
  same : ∀ ns, s.Opened ns → ns ≠ .global → ¬P.scopes ns → s'.context.scope ns = s.context.scope ns
  inside : ∀ ns, s.Opened ns → ns.className? ≠ none → ¬P.making ns →
    (s'.decls ns).filter Decl.isMember = (s.decls ns).filter Decl.isMember
  types : ∀ ns, s.Opened ns → ¬P.making ns → (s'.context.scope ns).types = (s.context.scope ns).types
  params : ∀ ns, s.Opened ns → ¬P.making ns → ∀ p, .param p ∈ s'.decls ns → .param p ∈ s.decls ns
  taken : ∀ n, s.Spent n → s'.Taken n → s.Taken n ∨ P.names n

/-- Nothing but names may have been drawn, beside what the symbol table says. -/
structure Session.Passes (s s' : Session) : Prop where
  spent : ∀ n, s.Spent n → s'.Spent n
  pool : s'.source.pool.Sound
  language : s'.language = s.language
  config : s'.config = s.config
  frame : s'.frame = s.frame
  unfinished : s'.unfinished = s.unfinished

open Session in
/-- A step from a sound session: the session grows and stays sound, and what it declares in the
current scope, if that is local, fits there. -/
structure Session.Step (P : Permit) (s s' : Session) : Prop extends s.Extends P s' where
  sound : s'.Sound
  locals : s.frame.ns.IsLocal → ∀ d ∈ s'.localDecls, d ∈ s.localDecls ∨ s'.DeclFits d

end ProgramGen

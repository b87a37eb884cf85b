import ProgramGen.Class.Inheritance
import ProgramGen.Config.Basic
import ProgramGen.Names.Source

/-!
# Sessions

The state of a generator while it makes one program, and computations on it. A computation may fail;
the state is kept then, so that it can be inspected. Scopes save a part of the state and put it back
when they are left, whether their body failed or not.
-/

namespace ProgramGen

/-- Where in the program the generator is, and what is possible there. -/
structure Frame where
  ns : Namespace
  depth : Nat
  /-- The innermost closure. Variables from outside it can be read if they are final, and are never
  assigned. -/
  captureRoot : Option Namespace
  /-- In a branch of a conditional on a type, where Java has no place for declarations. -/
  inValueBranch : Bool
  inFuncBody : Bool
  inSuperCall : Bool
  /-- Placeholders may stand for values of classes. -/
  allowPlaceholders : Bool

/-- The frame that a program starts from. -/
def Frame.start : Frame := ⟨.global, 1, none, false, false, false, true⟩

/-- The frame of a scope inside the current one, one level deeper. -/
def Frame.enter (f : Frame) (ns : Namespace) : Frame := { f with ns := ns, depth := f.depth + 1 }

/-- The state of a generator. -/
structure Session where
  language : Language
  config : Config
  source : Source
  context : Context
  frame : Frame
  /-- Classes that are not finished: they are neither extended nor instantiated. -/
  unfinished : List String
  /-- How many expressions were moved into variables, by scope. -/
  hoisted : Std.HashMap Namespace Nat
  lambdaCount : Nat
  loopCount : Nat
  branchCount : Nat

/-- A session that has generated nothing yet. -/
def Session.start (source : Source) (config : Config) (l : Language) : Session where
  language := l
  config := config
  source := source
  context := .empty
  frame := .start
  unfinished := []
  hoisted := ∅
  lambdaCount := 0
  loopCount := 0
  branchCount := 0

/-- A computation of the generator. -/
abbrev Gen := ExceptT GenError (StateM Session)

namespace Gen

variable {α : Type}

/-- Run a computation; the state is there in either case. -/
def runIn (x : Gen α) (s : Session) : Except GenError α × Session := x s

/-! ## Chance -/

/-- Make random choices. -/
def rand (r : Rand α) : Gen α := fun s =>
  let (a, source) := s.source.run r
  (.ok a, { s with source := source })

/-- A fresh name that begins in lowercase. -/
def word : Gen String := fun s =>
  let (w, source) := s.source.word
  (.ok w, { s with source := source })

/-- A fresh name for a class. -/
def className : Gen String := fun s =>
  let (w, source) := s.source.className
  (.ok w, { s with source := source })

/-- `p`, or the nearer of zero and one if it is not between them. -/
def clampProbability (p : Float) : Float := if p < 0.0 then 0.0 else if p > 1.0 then 1.0 else p

/-- `true` with the probability that `p` selects from the configuration. -/
def chance (p : Probabilities → Binary64) : Gen Bool := do
  rand (Rand.bool (clampProbability (p (← get).config.prob).toFloat))

def coin : Gen Bool := rand Rand.coin

/-- A coin that is tossed only if `c` holds; otherwise the answer is no. -/
def onlyIf (c : Bool) (x : Gen Bool) : Gen Bool := if c then x else pure false

/-- One element, if there is any. -/
def pick (xs : List α) : Gen (Option α) := rand (Rand.choose xs)

/-- A size from `lo` to `hi`, both included. -/
def sizeBetween (lo hi : Nat) : Gen Nat := rand (Rand.sizeBetween lo hi)

/-! ## Repetition -/

/-- The results of `n` runs, in order. -/
def times (n : Nat) (x : Gen α) : Gen (List α) :=
  match n with
  | 0 => return []
  | n + 1 => do
    let a ← x
    return a :: (← times n x)

/-! ## Scopes -/

/-- Run `body` in a changed frame, and put the frame back. -/
def inFrame (change : Frame → Frame) (body : Gen α) : Gen α := fun s =>
  let saved := s.frame
  let (r, s') := body { s with frame := change saved }
  (r, { s' with frame := saved })

/-- Run `body` some levels deeper. -/
def nested (levels : Nat) (body : Gen α) : Gen α :=
  inFrame (fun f => { f with depth := f.depth + levels }) body

/-- Run `body` while the class `name` counts as unfinished. -/
def whileUnfinished (name : String) (body : Gen α) : Gen α := fun s =>
  let saved := s.unfinished
  let (r, s') := body { s with unfinished := name :: saved }
  (r, { s' with unfinished := saved })

/-! ## The symbol table -/

/-- Carry out a change of the symbol table that may be refused. -/
def updateContext (f : Context → Except GenError Context) : Gen Unit := fun s =>
  match f s.context with
  | .ok c => (.ok (), { s with context := c })
  | .error e => (.error e, s)

def addDecl (ns : Namespace) (d : Decl) : Gen Unit := updateContext (·.add ns d)

def addType (ns : Namespace) (p : TypeParam) : Gen Unit := updateContext (·.addType ns p)

def modifyContext (f : Context → Context) : Gen Unit :=
  modify fun s => { s with context := f s.context }

/-- Run `body` with a variable bound in `ns`, and remove it afterwards. -/
def withShadow (ns : Namespace) (d : Decl) (body : Gen α) : Gen α := do
  updateContext (·.addVar ns d)
  fun s =>
    let (r, s') := body s
    (r, { s' with context := s'.context.removeVar ns d.name })

end Gen

/-! ## What a session can see -/

namespace Session

variable (s : Session)

def anyType : Ty := s.language.anyType

def isUnfinished (name : String) : Bool := s.unfinished.contains name

/-- The classes of the program, in order of declaration. -/
def classes : List ClassDecl := s.context.classes .global false

def class? (name : String) : Option ClassDecl := s.context.class? .global name false

/-- The classes that may be used, for they are finished. -/
def finishedClasses : List ClassDecl := s.classes.filter fun c => !s.isUnfinished c.name

/-- Whether a variable of `scope` can be read in the current closure. -/
def canRead (scope : Namespace) (d : Decl) : Bool :=
  match s.frame.captureRoot, d with
  -- A closure captures only what is final. Parameters are, and fields belong to the object.
  | some root, .var v => v.isFinal || scope.isGlobal || scope.isWithin root
  | _, _ => true

/-- Whether a variable of `scope` can be assigned in the current closure. -/
def canAssign (scope : Namespace) : Decl → Bool
  | .var v =>
    !v.isFinal &&
      match s.frame.captureRoot with
      | some root => scope.isGlobal || scope.isWithin root
      | none => true
  | .field f => !f.isFinal
  | _ => false

/-- The variables, parameters and fields that can be read. -/
def readableVars : List Decl :=
  (s.context.scopedVars s.frame.ns).filterMap fun (scope, d) =>
    if s.canRead scope d then some d else none

/-- The variables and fields that can be assigned. -/
def assignableVars : List Decl :=
  (s.context.scopedVars s.frame.ns).filterMap fun (scope, d) =>
    if s.canAssign scope d then some d else none

/-- The class of a receiver and the substitution that views its members through the receiver's
type. Builtin and projected types have none. -/
def receiver? (t : Ty) : Option (ClassDecl × Subst) :=
  match t with
  | .simple n _ => (s.class? n).map (·, ∅)
  | .applied c _ =>
    if c.builtin || t.hasWildcards then none else (s.class? c.name).map (·, t.argMap)
  | _ => none

/-- What the current scope declares, parameters and closures left out. -/
def localDecls : List Decl :=
  (s.context.declarations s.frame.ns).filter fun
    | .param _ => false
    | .lambda _ => false
    | _ => true

/-- The type of the object itself inside a class. -/
def thisType? : Option Ty :=
  match s.frame.ns.segments with
  -- Classes are declared at the top level, so the second segment names the class around a scope.
  | _ :: name :: _ =>
    if startsUppercase name then
      (s.class? name).map fun c => if c.isGeneric then c.ctor.ownInstance else c.type
    else none
  | _ => none

end Session

/-! ## Members -/

/-- The class whose body a namespace is. -/
def Namespace.className? (ns : Namespace) : Option String :=
  match ns.segments with
  | [_, name] => if startsUppercase name then some name else none
  | _ => none

/-- Where a function declared in a namespace belongs. -/
def FuncKind.inside (ns : Namespace) : FuncKind :=
  if ns.isGlobal then .topLevel
  else if ns.size == 2 && startsUppercase ns.last then .method
  else .nested

namespace Gen

/-- Add a member to the list of a class. -/
def addMember (className : String) (d : Decl) : Gen Unit := do
  match (← get).context.class? .global className false with
  | none => throw (.unknownClass className)
  | some _ =>
    match d with
    | .field f =>
      modifyContext (·.modifyClass .global className fun c => { c with fields := c.fields ++ [f] })
    | .func f =>
      modifyContext (·.modifyClass .global className fun c => { c with funcs := c.funcs ++ [f] })
    | _ => throw (.notMember d.name className)

/-- Register a declaration, and if the scope is the body of a class, add it to the class. -/
def attach (ns : Namespace) (d : Decl) : Gen Unit := do
  match ns.className? with
  | some name => addMember name d
  | none => pure ()
  addDecl ns d

/-- Put a completed function in the place of what was registered of it, in its class too. -/
def updateFunc (ns : Namespace) (f : FuncDecl) : Gen Unit := do
  if ((← get).context.func? ns f.name false).isNone then throw (.lostFunc f.name)
  modifyContext (·.modifyFunc ns f.name fun _ => f)
  match ns.className? with
  | none => pure ()
  | some name =>
    modifyContext (·.modifyClass .global name fun c =>
      { c with funcs := Context.modifyFirst (·.name == f.name) (fun _ => f) c.funcs })

end Gen

end ProgramGen

import ProgramGen.Synthesis.Function

/-!
# Classes

A class is registered with its supertype before its members are generated, and counts as unfinished
until it has all of them. A regular class implements what it inherits without body; beyond that it
overrides some members and adds its own.
-/

namespace ProgramGen

/-- What is required of a class. What is not given is chosen at random. -/
structure ClassSpec where
  /-- It has a field of this type. -/
  fieldType : Option Ty := none
  /-- It has a method that returns this type. -/
  returnType : Option Ty := none
  notVoid : Bool := false
  typeParams : Option (List TypeParam) := none
  name : Option String := none
  /-- It has a method with the signature of this function type. -/
  signature : Option Ty := none

/-- The frame inside the body of a class. -/
def Frame.enterClass (f : Frame) (ns : Namespace) : Frame :=
  { f.enter ns with
    captureRoot := none
    inValueBranch := false
    inFuncBody := false
    inSuperCall := false
    allowPlaceholders := true }

namespace Gen

/-! ## The supertype -/

/-- Arguments for the constructor of a superclass: a leaf for each field, seen through `m`. -/
def genSuperArgs (e : Engine) (c : ClassDecl) (m : Subst) : Gen (List Expr) :=
  inFrame (fun f => { f with inSuperCall := true }) do
    c.fields.mapM fun f => e.expr (f.ty.subst m) .leaves

/-- A class applied to arguments that can be named here, with what its parameters stand for. -/
def instantiateClass (c : ClassDecl) : Gen (Option (Ty × Subst)) :=
  if c.isGeneric then instantiate c.ctor ∅ else return some (c.type, ∅)

/-- A supertype for a new class, or none. Interfaces extend interfaces only; final classes and
unfinished ones are never extended. -/
def selectSuperclass (e : Engine) (onlyInterfaces : Bool) : Gen (Option SuperDecl) := do
  let candidates := (← get).finishedClasses.filter fun c =>
    !c.isFinal && (!onlyInterfaces || c.isInterface)
  if candidates.isEmpty then return none
  else if ← coin then return none
  else
    match ← pick candidates with
    | none => return none
    | some chosen =>
      match ← instantiateClass chosen with
      | none => return none
      | some (t, m) =>
        let args ←
          if chosen.isInterface then pure none
          else some <$> genSuperArgs e chosen m
        return some ⟨t, args⟩

/-! ## Fields -/

/-- A new field, of the given type or of a random one. What changes may not be covariant. -/
def genField (type : Option Ty) (classIsFinal : Bool) : Gen FieldDecl := do
  let canOverride ← onlyIf (!classIsFinal) coin
  let isFinal ← coin
  let t ← match type with
    | some t => pure t
    | none => selectType { noContravariant := true, noCovariant := !isFinal, noFunctions := true }
  return ⟨← word, t, isFinal, canOverride, false⟩

/-- Override an inherited field, seen through `m`. -/
def overrideField (ns : Namespace) (m : Subst) (classIsFinal : Bool) (f : FieldDecl) :
    Gen Unit := do
  let canOverride ← onlyIf (!classIsFinal) coin
  attach ns (.field ⟨f.name, f.ty.subst m, f.isFinal, canOverride, true⟩)

/-- Some of the members that can be overridden, at most `most`. -/
def sample {α : Type} (xs : List α) (most : Nat) : Gen (List α) := do
  let k ← sizeBetween 0 (min xs.length most)
  rand (Rand.chooseMultiple xs k)

/-- The fields of a new class: the required one, some inherited ones, and others. -/
def genFields (ns : Namespace) (classIsFinal : Bool) (required superType : Option Ty) :
    Gen Unit := do
  let limit := (← get).config.limits.cls.maxFields
  let limit ← match required with
    | none => pure limit
    | some t =>
      attach ns (.field (← genField (some t) classIsFinal))
      pure (limit - 1)
  let overridden ← match superType.bind (← get).receiver? with
    | none => pure 0
    | some (c, m) =>
      let fields ← sample c.overridableFields limit
      fields.forM (overrideField ns m classIsFinal)
      pure fields.length
  let extra ← sizeBetween 0 (limit - overridden)
  let _ ← times extra do attach ns (.field (← genField none classIsFinal))

/-! ## Methods -/

/-- Give new letters to those type parameters of an inherited function whose names are visible in
the class; `m` views the function in the class. -/
def renameClashing (m : Subst) (visible : List String) :
    List TypeParam → List String → Subst → Gen Subst
  | [], _, view => return view
  | p :: ps, taken, view => do
    if visible.contains p.name then
      match ← rand (freshLetter taken) with
      | some letter =>
        -- The bound is seen through `m` alone: parameters in it keep their letters.
        let renamed : TypeParam := ⟨"F_" ++ letter, p.variance, p.bound.map (Ty.subst m)⟩
        renameClashing m visible ps (taken ++ [letter]) (view.insert p (.param renamed))
      | none => renameClashing m visible ps taken view
    else renameClashing m visible ps taken view

/-- Override an inherited function, seen through `m`. Default values are not inherited. -/
def overrideFunc (e : Engine) (ns : Namespace) (m : Subst) (classIsFinal : Bool) (f : FuncDecl) :
    Gen FuncDecl := do
  let visible := ((← get).context.types ns true).map (·.name)
  let taken := (visible ++ f.typeParams.map (·.name)).map Session.visibleLetters.stripFunctionMark
  let m ← renameClashing m visible f.typeParams taken m
  genFuncDecl e
    { ret := some (f.ret.subst m)
      classIsFinal := classIsFinal
      name := some f.name
      params := some (f.params.map fun p => ⟨p.name, p.ty.subst m, none⟩)
      typeParams := some (f.typeParams.map (TypeParam.subst m))
      ns := some ns
      isOverride := true }

/-- The inherited functions with a body that a class can still override. -/
def overridableFuncs (s : Session) (ns : Namespace) (c : ClassDecl) : List FuncDecl :=
  -- The class is registered already, and has what it has implemented so far.
  let implemented := ((s.class? ns.last).map fun d => d.funcs.map (·.name)).getD []
  c.overridableFuncs.filter fun f => !f.isAbstract && !implemented.contains f.name

/-- Implement or override members of a supertype; the answer counts those overridden by choice. -/
def genInheritedFuncs (e : Engine) (ns : Namespace) (kind : ClassKind) (classIsFinal : Bool)
    (superType : Ty) (limit : Nat) : Gen Nat := do
  -- What is abstract has to be implemented, and does not count.
  if kind = .regular then
    (abstractMembers (← get).context superType).forM fun (f, m) => do
      let _ ← overrideFunc e ns m classIsFinal f
  if kind = .interface then return 0
  else
    match (← get).receiver? superType with
    | none => return 0
    | some (c, m) =>
      let funcs ← sample (overridableFuncs (← get) ns c) limit
      funcs.forM fun f => do
        let _ ← overrideFunc e ns m classIsFinal f
      return funcs.length

/-- The methods of a new class: the required ones, inherited ones, and others. -/
def genMethods (e : Engine) (ns : Namespace) (kind : ClassKind) (classIsFinal : Bool)
    (spec : ClassSpec) (superType : Option Ty) : Gen Unit := do
  let member : FuncSpec :=
    { notVoid := spec.notVoid
      classIsFinal := classIsFinal
      isAbstract := kind ≠ .regular
      isInterface := kind = .interface
      ns := some ns }
  let limit := (← get).config.limits.cls.maxFuncs
  let limit ← match spec.returnType with
    | none => pure limit
    | some t =>
      let _ ← genFuncDecl e { member with ret := some t, notVoid := true }
      pure (limit - 1)
  let limit ← match spec.signature with
    | none => pure limit
    | some signature =>
      match signature.functionSignature? with
      | none => pure (limit - 1)
      | some (types, ret) =>
        let params ← types.mapM fun t => return ⟨← word, t, none⟩
        let _ ← genFuncDecl e { member with ret := some ret, params := some params }
        pure (limit - 1)
  let overridden ← match superType with
    | none => pure 0
    | some t => genInheritedFuncs e ns kind classIsFinal t limit
  let extra ← sizeBetween 0 (limit - overridden)
  let _ ← times extra (genFuncDecl e member)

/-! ## Classes -/

/-- Generate a class and register it. -/
def genClassDecl (e : Engine) (spec : ClassSpec) : Gen ClassDecl := do
  let name ← match spec.name with
    | some n => pure n
    | none => className
  let ns := Namespace.global.child name
  inFrame (fun f => f.enterClass ns) do
    let kind ← selectClassKind spec.fieldType.isSome
    let isFinal ← onlyIf (kind == .regular) coin
    let typeParams ← match spec.typeParams with
      | some ps =>
        ps.forM (addType ns)
        pure ps
      | none => genTypeParams none true [] false
    whileUnfinished name do
      let superclass ← selectSuperclass e (kind == .interface)
      addDecl .global (.cls
        { ClassDecl.plain name kind with
          typeParams := typeParams
          supers := superclass.toList
          isFinal := isFinal })
      let superType := superclass.map (·.ty)
      if kind ≠ .interface then genFields ns isFinal spec.fieldType superType
      genMethods e ns kind isFinal spec superType
    match (← get).class? name with
    | some c => return c
    | none => throw (.lostClass name)

/-- Letters for the variables of a type, which become type parameters of a new class. A variable's
bound is kept if it does not depend on other variables. -/
def abstractVariables : List TypeParam → List String → Subst → List TypeParam →
    Gen (Subst × List TypeParam)
  | [], _, m, params => return (m, params)
  | v :: vs, taken, m, params => do
    match ← rand (freshLetter taken) with
    | none => return (m, params)
    | some letter =>
      -- Outside its scope another variable would mean nothing.
      let bound := v.effectiveBound.filter fun b => !b.hasVariables
      let p : TypeParam := ⟨letter, .invariant, bound⟩
      abstractVariables vs (taken ++ [letter]) (m.insert v (.param p)) (params ++ [p])

/-- Declare a class with a field of type `t`, or with a method that returns one. The variables of
`t` become type parameters of the class. Gives the type of a receiver through which the member is
seen with type `t`, and the type of the member inside the class. -/
def genMatchingClass (e : Engine) (t : Ty) (asField : Bool) : Gen (Ty × Ty) := do
  let vars := t.typeVars
  let (m, params) ← abstractVariables vars [] ∅ []
  let memberType := t.subst m
  let spec : ClassSpec :=
    if asField then { fieldType := some memberType, typeParams := some params }
    else
      { returnType := some memberType
        notVoid := !memberType.isVoid
        typeParams := some params }
  let c ← genClassDecl e spec
  let receiver :=
    if c.isGeneric then c.ctor.apply ((vars.take params.length).map .param) else c.type
  let seen := if c.isGeneric then memberType.subst receiver.argMap else memberType
  -- Through the receiver the member has to be seen with the requested type.
  match t.unify? seen with
  | some _ => return (receiver, memberType)
  | none => throw (.cannotUnify t seen)

end Gen

end ProgramGen

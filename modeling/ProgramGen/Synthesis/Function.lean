import ProgramGen.Synthesis.Variable

/-!
# Functions

Top-level functions, methods and nested functions. A function is registered with its signature
before its body is generated; the body then takes the place of a placeholder. Type parameters that
the signature does not mention are dropped first.
-/

namespace ProgramGen

/-- What is required of a function. What is not given is chosen at random. -/
structure FuncSpec where
  ret : Option Ty := none
  notVoid : Bool := false
  classIsFinal : Bool := false
  name : Option String := none
  params : Option (List ParamDecl) := none
  /-- A member of an abstract class or interface. -/
  isAbstract : Bool := false
  isInterface : Bool := false
  typeParams : Option (List TypeParam) := none
  /-- The enclosing scope, if it is not the current one. -/
  ns : Option Namespace := none
  isOverride : Bool := false

/-! ## Type parameters that are not used -/

/-- The type parameters that a signature mentions nowhere, each bound to what stands for it in the
bounds of the others: its own bound, or the top type. -/
def unusedTypeParams (l : Language) (ps : List TypeParam) (params : List ParamDecl) (ret : Ty) :
    Subst :=
  let used := (ret.typeVars ++ params.flatMap (·.ty.typeVars)).map (·.name)
  Subst.ofList <| (ps.filter fun p => !used.contains p.name).map fun p =>
    (p, p.effectiveBound.getD l.anyType)

/-- A type parameter with `m` applied to its bound, if `m` does not replace it by another type. -/
def TypeParam.subst (m : Subst) (p : TypeParam) : TypeParam :=
  match (Ty.param p).subst m with
  | .param q => q
  | _ => p

/-- A type parameter list, parameters and return type. -/
structure Signature where
  typeParams : List TypeParam
  params : List ParamDecl
  ret : Ty

namespace Gen

/-- Drop the type parameters that a signature does not use, and unregister them in `ns`. -/
def pruneTypeParams (ns : Namespace) (sig : Signature) : Gen Signature := do
  let m := unusedTypeParams (← get).language sig.typeParams sig.params sig.ret
  if m.isEmpty then return sig
  else
    -- Those that are kept are registered anew, for their bounds may have changed.
    modifyContext fun c => sig.typeParams.foldl (fun c p => c.removeType ns p.name) c
    let kept := (sig.typeParams.filter fun p => !m.contains p).map (TypeParam.subst m)
    kept.forM (addType ns)
    return ⟨kept, sig.params.map fun p => { p with ty := p.ty.subst m }, sig.ret.subst m⟩

/-! ## Parameters and return type -/

/-- A parameter without default value, of the given type or of a random one. -/
def genParam (type : Option Ty) : Gen ParamDecl := do
  let t ← match type with
    | some (.wildcard _ b) => pure (b.getD (← get).anyType)
    | some t => pure t
    | none => selectType { noCovariant := true }
  return ⟨← word, t, none⟩

/-- `n` parameters. Once one of them has a default value, all that follow have one; the values are
generated in the scope around the function. -/
def genParams (e : Engine) (parent : Namespace) (withDefaults : Bool) :
    Nat → Bool → Gen (List ParamDecl)
  | 0, _ => return []
  | n + 1, started => do
    let p ← genParam none
    let hasDefault ← onlyIf withDefaults (if started then pure true else coin)
    let value ←
      if hasDefault then
        some <$> inFrame (fun f => { f with ns := parent }) (e.expr p.ty .leaves)
      else pure none
    return { p with defaultValue := value } ::
      (← genParams e parent withDefaults n (started || hasDefault))

/-- The parameters of a new function; those of an interface have no default values. -/
def genFuncParams (e : Engine) (parent : Namespace) (isInterface : Bool) :
    Gen (List ParamDecl) := do
  let withDefaults ← onlyIf (!isInterface) (chance (·.defaultParams))
  let n ← sizeBetween 0 (← get).config.limits.func.maxParams
  genParams e parent withDefaults n false

/-- Whether a type is a parameter that may not come out of a class. -/
def isContravariantVariable : Ty → Bool
  | .param p => p.variance == .contravariant
  | _ => false

/-- The type of a parameter, or any other that may come out of a function. -/
def genReturnType (params : List ParamDecl) (notVoid : Bool) : Gen Ty := do
  let types := (params.map (·.ty)).filter fun t => !isContravariantVariable t
  let other := selectType { withVoid := !notVoid, noContravariant := true }
  if ← onlyIf (!types.isEmpty) (chance (·.returnParamType)) then
    match ← pick types with
    | some t => return t
    | none => other
  else other

/-! ## Declarations -/

/-- The type parameters of a function, registered in its scope. Nested functions have none. -/
def genFuncTypeParams (ns : Namespace) (kind : FuncKind) (given : Option (List TypeParam)) :
    Gen (List TypeParam) := do
  match kind, given with
  | .nested, _ => return []
  | _, some ps => do
    ps.forM (addType ns)
    return ps
  | _, none => do
    if ← chance (·.parameterizedFunctions) then
      genTypeParams (some 1) false (← get).visibleLetters true
    else return []

/-- Generate a function and register it, in its class too if it is a method. -/
def genFuncDecl (e : Engine) (spec : FuncSpec) : Gen FuncDecl := do
  let name ← match spec.name with
    | some n => pure n
    | none => word
  let parent := spec.ns.getD (← get).frame.ns
  let kind := FuncKind.inside parent
  let ns := parent.child name
  let enter (f : Frame) : Frame :=
    { f.enter ns with
      -- Only a nested function has variables of another function around it.
      captureRoot := if kind = .nested then some ns else none
      inValueBranch := false
      inFuncBody := false
      inSuperCall := false }
  inFrame enter do
    let l := (← get).language
    let canOverride ←
      if spec.isAbstract || spec.isInterface then pure true
      else onlyIf (kind == .method && !spec.classIsFinal) coin
    let typeParams ← genFuncTypeParams ns kind spec.typeParams
    let params ← match spec.params with
      | some ps => pure ps
      | none => genFuncParams e parent spec.isInterface
    let ret ← match spec.ret with
      | some t => pure t
      | none => genReturnType params spec.notVoid
    let hasBody ←
      if spec.isInterface then pure false
      else pure !(← onlyIf spec.isAbstract (chance (·.abstractBody)))
    -- What the signature does not use is gone before the body could use it.
    let sig ← pruneTypeParams ns ⟨typeParams, params, ret⟩
    let decl : FuncDecl :=
      { name := name
        params := sig.params
        ret := sig.ret
        body := if hasBody then some (.unresolved l.voidType) else none
        kind := kind
        typeParams := sig.typeParams
        isFinal := !canOverride
        isOverride := spec.isOverride }
    attach parent (.func decl)
    sig.params.forM fun p => updateContext (·.addVar ns (.param p))
    if hasBody then
      let body ← inFrame (fun f => { f with inFuncBody := true }) (e.body sig.ret)
      let decl := { decl with body := some body }
      updateFunc parent decl
      return decl
    else return decl

/-- The entry function, whose values are never placeholders. -/
def genMain (e : Engine) : Gen FuncDecl := do
  let l := (← get).language
  inFrame (fun f => { f with allowPlaceholders := false }) do
    genFuncDecl e
      { ret := some l.voidType
        classIsFinal := true
        name := some "main"
        params := some [⟨"args", l.arrayOf l.stringType, none⟩]
        typeParams := some []
        ns := some .global }

end Gen

end ProgramGen

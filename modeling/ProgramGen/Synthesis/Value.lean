import ProgramGen.Synthesis.Class
import ProgramGen.Synthesis.Literal

/-!
# New values

A value of a given type from nothing: an instance of a class, a literal, a closure or a reference to
a function. An abstract type without concrete subtypes gets a class that implements it.
-/

namespace ProgramGen

/-! ## Function values -/

/-- References to functions that have just the signature `params` to `ret`: top-level functions and
methods of the class around, as far as they are finished, and methods of readable variables. -/
def Session.matchingFuncRefs (s : Session) (t : Ty) (params : List Ty) (ret : Ty) : List Expr :=
  let own := (s.context.funcs s.frame.ns true).filterMap fun f =>
    if f.isGeneric || f.kind == .nested || s.frame.ns.segments.contains f.name || f.ret != ret ||
        f.paramTypes != params then none
    else if f.kind = .method then
      s.thisType?.map fun this => .funcRef (some (.var "this" this)) f.name t
    else some (.funcRef none f.name t)
  let ofVars := s.readableVars.flatMap fun d =>
    match d.varType? with
    | none => []
    | some v =>
      match s.receiver? v with
      | none => []
      | some (c, m) =>
        (c.funcs.filter fun f =>
          !f.isGeneric && f.ret.subst m == ret && f.paramTypes.map (Ty.subst m) == params).map
            fun f => .funcRef (some (.var d.name v)) f.name t
  own ++ ofVars

namespace Gen

/-- A closure, generated in a scope of its own and registered around it. -/
def genLambda (e : Engine) (params : List Ty) (ret : Ty) (samTarget : Option Ty) : Gen Expr := do
  modify fun s => { s with lambdaCount := s.lambdaCount + 1 }
  let s ← get
  let name := "lambda_" ++ toString s.lambdaCount
  let parent := s.frame.ns
  let ns := parent.child name
  let enter (f : Frame) : Frame :=
    { f.enter ns with captureRoot := some ns, inValueBranch := false, inFuncBody := true }
  let lambda ← inFrame enter do
    let decls ← params.mapM fun t => do
      let p : ParamDecl := ⟨← word, t, none⟩
      updateContext (·.addVar ns (.param p))
      return p
    let body ← e.body ret
    return (⟨name, decls, ret, body, s.language.functionType params ret, samTarget⟩ : LambdaDecl)
  -- Registered when it is complete: unlike a function, a closure does not see itself.
  addDecl parent (.lambda lambda)
  return .lambda lambda

/-- A value of function type: a reference to a function with that signature, or a closure. -/
def genFuncValue (e : Engine) (t : Ty) : Gen Expr := do
  match t.functionSignature? with
  | none => return .unresolved t
  | some (params, ret) =>
    let s ← get
    let reference ←
      if ← onlyIf (!s.frame.inSuperCall) (chance (·.funcRef)) then
        pick (s.matchingFuncRefs t params ret)
      else pure none
    match reference with
    | some r => return r
    | none => genLambda e params ret none

/-! ## Instances -/

/-- An instance of a regular class, with a value for each field seen through `m`. A field of the
class's own type gets a placeholder. -/
def genInstance (e : Engine) (t : Ty) (c : ClassDecl) (m : Subst) : Gen Expr := do
  let limit := 2 * (← get).config.limits.maxDepth
  let args ← nested 1 (c.fields.mapM fun f => do
    let tooDeep := (← get).frame.depth > limit
    e.expr (f.ty.subst m) { placeholder := f.ty.name == c.name || tooDeep })
  return .new t args

/-- Declare a final class that implements `t`, and instantiate it. -/
def genImplementation (e : Engine) (t : Ty) : Gen Expr := do
  if t.hasVariables then return .unresolved t
  else
    match (← get).receiver? t with
    | none => return .unresolved t
    | some (sup, m) =>
      let name ← className
      let ns := Namespace.global.child name
      inFrame (fun f => f.enterClass ns) do
        let args ← if sup.isInterface then pure none else some <$> genSuperArgs e sup m
        addDecl .global
          (.cls { ClassDecl.plain name .regular with supers := [⟨t, args⟩], isFinal := true })
        whileUnfinished name do
          (abstractMembers (← get).context t).forM fun (f, view) => do
            let _ ← overrideFunc e ns view true f
      return .new (((← get).class? name).map (·.type) |>.getD t) []

/-- A closure for an interface, if `t` is one that a closure can implement. -/
def genSamLambda (e : Engine) (t : Ty) : Gen (Option Expr) := do
  let s ← get
  match (samSignature? s.context s.language t).bind Ty.functionSignature? with
  | some (params, ret) => some <$> genLambda e params ret (some t)
  | none => return none

/-- A random concrete subtype of an abstract type, if one is known. -/
def concreteSubtype (t : Ty) : Gen (Option Ty) := do
  let sub ← match ← pick (findSubtypes t (← get).finishedClasses [] false true) with
    | some (.constructor c) => pure ((← instantiate c ∅).map (·.1))
    | other => pure other
  -- The arguments of a generic class are random, and may lead elsewhere.
  return sub.filter (·.isSubtype t)

/-- A value of a class type. -/
def genNewClass (e : Engine) (t : Ty) (samCoercion : Bool) : Gen Expr := do
  if (← get).isUnfinished t.name then return .unresolved t
  else
    let closure ←
      if ← onlyIf samCoercion (chance (·.samCoercion)) then genSamLambda e t else pure none
    match closure with
    | some lambda => return lambda
    | none =>
      match (← get).receiver? t with
      | none => return .unresolved t
      | some (c, m) =>
        if c.kind = .regular then genInstance e t c m
        else
          match ← concreteSubtype t with
          | some sub => e.new sub false
          | none => genImplementation e t

/-- A new value of type `t`; a placeholder if the type has no values to construct. -/
def genNew (e : Engine) (t : Ty) (samCoercion : Bool) : Gen Expr := do
  let l := (← get).language
  match t with
  | .param _ => return .unresolved t
  | .wildcard .. => return .unresolved t
  | .constructor _ =>
    let concrete ← concretize t
    if concrete.isConstructor then return .unresolved l.anyType else e.new concrete samCoercion
  | .builtin _ k _ _ _ =>
    match k with
    | .any => return .new t []
    | .nothing => return .unresolved t
    | .void => return .unresolved t
    | _ => genConstant e t
  | .applied c _ =>
    if c.builtin then
      if t.isFunctionType then genFuncValue e t
      else if c.name = l.arrayName || c.name = l.arrayListName then genArray e t
      else return .unresolved t
    else genNewClass e t samCoercion
  | .simple .. => genNewClass e t samCoercion

end Gen

end ProgramGen

import ProgramGen.Proofs.Binding.Parameters
import ProgramGen.Proofs.Run.Logic
import ProgramGen.Synthesis.Class

/-!
# The stages of a declaration

The declarations of functions and classes as sequences of stages with names of their own: what is
given is taken, what is not is chosen, and then the declaration is registered and completed. What is
proved of a stage is proved once for all that follows it.
-/

namespace ProgramGen

variable {l : Language} {ps : List TypeParam} {params : List ParamDecl} {ret : Ty}

/-- The frame inside a function, before its body. -/
def Frame.enterFunc (f : Frame) (kind : FuncKind) (ns : Namespace) : Frame :=
  { f.enter ns with
    captureRoot := if kind = .nested then some ns else none
    inValueBranch := false
    inFuncBody := false
    inSuperCall := false }

/-! ## Classes for a type -/

/-- The type of a receiver: the class applied to the variables that its parameters stand for. -/
def ClassDecl.receiverFor (c : ClassDecl) (vars : List TypeParam) : Ty :=
  if c.isGeneric then c.ctor.apply (vars.map .param) else c.type

/-- A class without parameters binds none. -/
theorem ClassDecl.argMap_type {c : ClassDecl} (h : ¬c.isGeneric) : c.type.argMap = ∅ := by
  have hempty : c.typeParams.isEmpty := by simpa [ClassDecl.isGeneric] using h
  rw [ClassDecl.type, if_pos hempty]
  rfl

theorem ClassDecl.argMap_receiverFor {c : ClassDecl} {vars : List TypeParam} :
    (c.receiverFor vars).argMap = if c.isGeneric then Subst.ofArgs c.typeParams (vars.map .param) else ∅ := by
  unfold receiverFor
  split
  · rfl
  · exact ClassDecl.argMap_type ‹_›

/-- What is asked of a class with a member of the type. -/
def ClassSpec.matching (params : List TypeParam) (member : Ty) (asField : Bool) : ClassSpec :=
  if asField then { fieldType := some member, typeParams := some params }
  else { returnType := some member, notVoid := !member.isVoid, typeParams := some params }

/-! ## Unused type parameters -/

/-- What the signature mentions is not replaced. -/
theorem lookup_unusedTypeParams {p : TypeParam} (hp : ret.Occurs p ∨ ∃ q ∈ params, q.ty.Occurs p) :
    (unusedTypeParams l ps params ret).lookup p.name = none := by
  by_contra h
  obtain ⟨t, ht⟩ := Option.ne_none_iff_exists'.mp h
  obtain ⟨x, hx, hname, -⟩ := Subst.mem_of_lookup_ofList ht
  obtain ⟨q, hq, rfl⟩ := List.mem_map.mp hx
  obtain ⟨-, hunused⟩ := List.mem_filter.mp hq
  have hused : p.name ∈ (ret.typeVars ++ params.flatMap (·.ty.typeVars)).map (·.name) := by
    refine List.mem_map_of_mem (List.mem_append.mpr (hp.imp Ty.mem_typeVars.mpr ?_))
    rintro ⟨r, hr, hoccurs⟩
    exact List.mem_flatMap.mpr ⟨r, hr, Ty.mem_typeVars.mpr hoccurs⟩
  have hname' : q.name = p.name := hname
  simp only [hname', List.contains_eq_mem, hused, decide_true, Bool.not_true] at hunused
  cases hunused

/-- **The result type stays what it was.** -/
theorem subst_unusedTypeParams : ret.subst (unusedTypeParams l ps params ret) = ret :=
  Ty.subst_of_unbound fun _ hp => lookup_unusedTypeParams (.inl hp)

namespace Gen

/-! ## Variables -/

/-- The type of a new variable. -/
def variableType (type : Option Ty) : Gen Ty := do
  let t ← match type with
    | some t => pure t
    | none => selectType {}
  if t.isWildcard then concretize t else pure t

/-- The initializer of a new variable. -/
def variableInit (e : Engine) (ns : Namespace) (t : Ty) (onlyLeaves : Bool) (init : Option Expr) :
    Gen Expr :=
  match init with
  | some v => pure v
  | none =>
    inFrame
      (fun f =>
        { f with depth := f.depth + 1, allowPlaceholders := f.allowPlaceholders && !ns.isGlobal })
      (e.expr t { onlyLeaves := onlyLeaves, samCoercion := true })

theorem genVariableDecl_eq (e : Engine) (type : Option Ty) (onlyLeaves : Bool) (init : Option Expr) :
    genVariableDecl e type onlyLeaves init = (do
      let t ← variableType type
      let s ← get
      let ns := s.frame.ns
      let value ← variableInit e ns t onlyLeaves init
      let isFinal ← coin
      let inferred := (← coin) && canInfer s.language ns isFinal t value
      let decl : VarDecl := ⟨← word, t, value, isFinal, inferred⟩
      updateContext (·.addVar ns (.var decl))
      return decl) := by
  have hconcrete : ∀ {β : Type} (t : Ty) (f : Ty → Gen β),
      (if t.isWildcard then concretize t >>= f else pure t >>= f) =
        (if t.isWildcard then concretize t else pure t) >>= f := fun t f => by split <;> rfl
  cases type <;> cases init <;>
    simp only [genVariableDecl, variableType, variableInit, bind_assoc, pure_bind] <;>
    simp only [← hconcrete, pure_bind]

/-! ## Functions -/

/-- The name of a new function. -/
def funcName (spec : FuncSpec) : Gen String :=
  match spec.name with
  | some n => pure n
  | none => word

/-- Whether a new function can be overridden. -/
def funcCanOverride (spec : FuncSpec) (kind : FuncKind) : Gen Bool :=
  if spec.isAbstract || spec.isInterface then pure true
  else onlyIf (kind == .method && !spec.classIsFinal) coin

/-- The parameters of a new function. -/
def funcParams (e : Engine) (parent : Namespace) (spec : FuncSpec) : Gen (List ParamDecl) :=
  match spec.params with
  | some ps => pure ps
  | none => genFuncParams e parent spec.isInterface

/-- The result type of a new function. -/
def funcReturnType (spec : FuncSpec) (params : List ParamDecl) : Gen Ty :=
  match spec.ret with
  | some t => pure t
  | none => genReturnType params spec.notVoid

/-- Whether a new function has a body. -/
def funcHasBody (spec : FuncSpec) : Gen Bool :=
  if spec.isInterface then pure false
  else return !(← onlyIf spec.isAbstract (chance (·.abstractBody)))

/-- Register a function and its parameters, and complete it with its body. -/
def declareFunc (e : Engine) (parent ns : Namespace) (hasBody : Bool) (f : FuncDecl) :
    Gen FuncDecl := do
  attach parent (.func f)
  f.params.forM fun p => updateContext (·.addVar ns (.param p))
  if hasBody then
    let body ← inFrame (fun frame => { frame with inFuncBody := true }) (e.body f.ret)
    let f := { f with body := some body }
    updateFunc parent f
    return f
  else return f

/-- What is done in the scope of a new function. -/
def genFuncInside (e : Engine) (spec : FuncSpec) (parent : Namespace) (name : String) :
    Gen FuncDecl := do
  let kind := FuncKind.inside parent
  let ns := parent.child name
  let l := (← get).language
  let canOverride ← funcCanOverride spec kind
  let typeParams ← genFuncTypeParams ns kind spec.typeParams
  let params ← funcParams e parent spec
  let ret ← funcReturnType spec params
  let hasBody ← funcHasBody spec
  let sig ← pruneTypeParams ns ⟨typeParams, params, ret⟩
  declareFunc e parent ns hasBody
    { name := name
      params := sig.params
      ret := sig.ret
      body := if hasBody then some (.unresolved l.voidType) else none
      kind := kind
      typeParams := sig.typeParams
      isFinal := !canOverride
      isOverride := spec.isOverride }

theorem genFuncDecl_eq (e : Engine) (spec : FuncSpec) :
    genFuncDecl e spec = (do
      let name ← funcName spec
      let parent := spec.ns.getD (← get).frame.ns
      inFrame (·.enterFunc (.inside parent) (parent.child name))
        (genFuncInside e spec parent name)) := by
  obtain ⟨ret, _, _, name, params, isAbstract, isInterface, _, _, _⟩ := spec
  cases ret <;> cases name <;> cases params <;> cases isAbstract <;> cases isInterface <;>
    simp only [genFuncDecl, genFuncInside, funcName, funcCanOverride, funcParams, funcReturnType,
      funcHasBody, declareFunc, bind_assoc, pure_bind, Frame.enterFunc, Bool.or_true, Bool.or_false,
      Bool.false_eq_true, if_true, if_false]

/-! ## Classes -/

/-- A class that needs a field is no interface. -/
theorem selectClassKind_yields {needsField : Bool} {s : Session} :
    (selectClassKind needsField).Yields Session.OnlyDraws s fun kind _ => needsField → kind ≠ .interface := by
  unfold selectClassKind
  refine Yields.pick.bind fun kind s₁ _ hkind => .pure fun hneeds => ?_
  cases kind with
  | none => nofun
  | some kind =>
    have hmem := hkind kind rfl
    rw [if_pos hneeds] at hmem
    rintro rfl
    simp at hmem

/-- The name of a new class. -/
def specClassName (spec : ClassSpec) : Gen String :=
  match spec.name with
  | some n => pure n
  | none => className

/-- The type parameters of a new class, registered in its scope. -/
def classTypeParams (ns : Namespace) (spec : ClassSpec) : Gen (List TypeParam) :=
  match spec.typeParams with
  | some ps => do
    ps.forM (addType ns)
    return ps
  | none => genTypeParams none true [] false

/-- The field that a new class must have; the answer says how many more it may have. -/
def requiredField (ns : Namespace) (classIsFinal : Bool) (required : Option Ty) (limit : Nat) :
    Gen Nat :=
  match required with
  | none => pure limit
  | some t => do
    attach ns (.field (← genField (some t) classIsFinal))
    pure (limit - 1)

/-- The inherited fields that a new class overrides; the answer counts them. -/
def inheritedFields (ns : Namespace) (classIsFinal : Bool) (superType : Option Ty) (limit : Nat) :
    Gen Nat := do
  match superType.bind (← get).receiver? with
  | none => pure 0
  | some (c, m) =>
    let fields ← sample c.overridableFields limit
    fields.forM (overrideField ns m classIsFinal)
    pure fields.length

theorem genFields_eq (ns : Namespace) (classIsFinal : Bool) (required superType : Option Ty) :
    genFields ns classIsFinal required superType = (do
      let limit ← requiredField ns classIsFinal required (← get).config.limits.cls.maxFields
      let overridden ← inheritedFields ns classIsFinal superType limit
      let extra ← sizeBetween 0 (limit - overridden)
      let _ ← times extra do attach ns (.field (← genField none classIsFinal))) := by
  unfold genFields inheritedFields
  cases required with
  | none =>
    simp only [requiredField, bind_assoc, pure_bind]
    refine bind_congr fun _ => bind_congr fun s => ?_
    rcases superType.bind s.receiver? with _ | ⟨c, m⟩ <;> simp only [bind_assoc, pure_bind]
  | some t =>
    simp only [requiredField, bind_assoc, pure_bind]
    refine bind_congr fun _ => bind_congr fun _ => bind_congr fun _ => bind_congr fun s => ?_
    rcases superType.bind s.receiver? with _ | ⟨c, m⟩ <;> simp only [bind_assoc, pure_bind]

/-- The method that a new class must have by its result; the answer says how many more it may
have. -/
def requiredMethod (e : Engine) (member : FuncSpec) (ret : Option Ty) (limit : Nat) : Gen Nat :=
  match ret with
  | none => pure limit
  | some t => do
    let _ ← genFuncDecl e { member with ret := some t, notVoid := true }
    pure (limit - 1)

/-- The method that a new class must have by its signature. -/
def signatureMethod (e : Engine) (member : FuncSpec) (signature : Option Ty) (limit : Nat) :
    Gen Nat :=
  match signature with
  | none => pure limit
  | some signature =>
    match signature.functionSignature? with
    | none => pure (limit - 1)
    | some (types, ret) => do
      let params ← types.mapM fun t => return ⟨← word, t, none⟩
      let _ ← genFuncDecl e { member with ret := some ret, params := some params }
      pure (limit - 1)

/-- The inherited functions that a new class implements or overrides; the answer counts those
overridden by choice. -/
def inheritedMethods (e : Engine) (ns : Namespace) (kind : ClassKind) (classIsFinal : Bool)
    (superType : Option Ty) (limit : Nat) : Gen Nat :=
  match superType with
  | none => pure 0
  | some t => genInheritedFuncs e ns kind classIsFinal t limit

/-- What every method of a new class is asked for. -/
def memberSpec (ns : Namespace) (kind : ClassKind) (classIsFinal notVoid : Bool) : FuncSpec :=
  { notVoid := notVoid
    classIsFinal := classIsFinal
    isAbstract := kind ≠ .regular
    isInterface := kind = .interface
    ns := some ns }

theorem genMethods_eq (e : Engine) (ns : Namespace) (kind : ClassKind) (classIsFinal : Bool)
    (spec : ClassSpec) (superType : Option Ty) :
    genMethods e ns kind classIsFinal spec superType = (do
      let member := memberSpec ns kind classIsFinal spec.notVoid
      let limit ← requiredMethod e member spec.returnType (← get).config.limits.cls.maxFuncs
      let limit ← signatureMethod e member spec.signature limit
      let overridden ← inheritedMethods e ns kind classIsFinal superType limit
      let extra ← sizeBetween 0 (limit - overridden)
      let _ ← times extra (genFuncDecl e member)) := by
  obtain ⟨_, returnType, _, _, _, signature⟩ := spec
  have hsignature : ∀ o : Option Ty, o = none ∨ (∃ t, o = some t ∧ t.functionSignature? = none) ∨
      ∃ t types ret, o = some t ∧ t.functionSignature? = some (types, ret) := by
    intro o
    rcases o with _ | t
    · exact .inl rfl
    · rcases h : t.functionSignature? with _ | ⟨types, ret⟩
      · exact .inr (.inl ⟨t, rfl, h⟩)
      · exact .inr (.inr ⟨t, types, ret, rfl, h⟩)
  obtain rfl | ⟨t, rfl, h⟩ | ⟨t, types, ret, rfl, h⟩ := hsignature signature <;>
    cases returnType <;> cases superType <;>
    simp only [genMethods, requiredMethod, signatureMethod, inheritedMethods, memberSpec, bind_assoc,
      pure_bind, *]

/-- Register a class with its supertype, and generate its members. -/
def declareClass (e : Engine) (spec : ClassSpec) (ns : Namespace) (name : String)
    (kind : ClassKind) (isFinal : Bool) (typeParams : List TypeParam) : Gen Unit := do
  let superclass ← selectSuperclass e (kind == .interface)
  addDecl .global (.cls
    { ClassDecl.plain name kind with
      typeParams := typeParams
      supers := superclass.toList
      isFinal := isFinal })
  let superType := superclass.map (·.ty)
  if kind ≠ .interface then genFields ns isFinal spec.fieldType superType
  genMethods e ns kind isFinal spec superType

/-- What is done in the scope of a new class. -/
def genClassInside (e : Engine) (spec : ClassSpec) (ns : Namespace) (name : String) :
    Gen ClassDecl := do
  let kind ← selectClassKind spec.fieldType.isSome
  let isFinal ← onlyIf (kind == .regular) coin
  let typeParams ← classTypeParams ns spec
  whileUnfinished name (declareClass e spec ns name kind isFinal typeParams)
  match (← get).class? name with
  | some c => return c
  | none => throw (.lostClass name)

theorem genClassDecl_eq (e : Engine) (spec : ClassSpec) :
    genClassDecl e spec = (do
      let name ← specClassName spec
      let ns := Namespace.global.child name
      inFrame (·.enterClass ns) (genClassInside e spec ns name)) := by
  obtain ⟨_, _, _, typeParams, name, _⟩ := spec
  cases typeParams <;> cases name <;>
    simp only [genClassDecl, genClassInside, specClassName, classTypeParams, declareClass, bind_assoc,
      pure_bind] <;> rfl

/-! ## Classes for a type -/

/-- A class with a member for the type `t` is declared. -/
def declareMatching (e : Engine) (t : Ty) (asField : Bool) : Gen (Ty × Ty) := do
  let (m, params) ← abstractVariables t.typeVars [] ∅ []
  let c ← genClassDecl e (.matching params (t.subst m) asField)
  return (c.receiverFor (t.typeVars.take params.length), t.subst m)

/-- Through the receiver, the member has to be seen with the type `t`. -/
def requireSeen (t : Ty) (x : Ty × Ty) : Gen (Ty × Ty) :=
  match t.unify? (x.2.subst x.1.argMap) with
  | some _ => return x
  | none => throw (.cannotUnify t (x.2.subst x.1.argMap))

theorem requireSeen_of_eq {t seen : Ty} {x : Ty × Ty} (h : x.2.subst x.1.argMap = seen) :
    requireSeen t x = match t.unify? seen with
      | some _ => pure x
      | none => throw (.cannotUnify t seen) := by
  subst seen
  rfl

theorem genMatchingClass_eq (e : Engine) (t : Ty) (asField : Bool) :
    genMatchingClass e t asField = (do requireSeen t (← declareMatching e t asField)) := by
  unfold genMatchingClass declareMatching
  simp only [bind_assoc, pure_bind]
  refine bind_congr fun x => bind_congr fun c => (requireSeen_of_eq ?_).symm
  split
  · rfl
  · rename_i hgeneric
    dsimp only
    rw [ClassDecl.argMap_type hgeneric, Ty.subst_empty]

end Gen

end ProgramGen

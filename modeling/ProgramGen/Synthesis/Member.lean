import ProgramGen.Synthesis.Call

/-!
# Fields and assignment

Reading a field of a readable variable, of a declared class, or of a class declared for the purpose;
and assigning a variable or field that is not final.
-/

namespace ProgramGen

/-- A variable or field as the target of an access. -/
structure Target where
  /-- The expression that the field belongs to, if it is there already. -/
  receiver : Option Expr
  receiverType : Ty
  name : String
  ty : Ty

/-- The fields of readable variables, seen through the type of the variable. -/
def Session.receiverFields (s : Session) (onlyMutable : Bool) : List Target :=
  s.readableVars.flatMap fun d =>
    match d.varType? with
    | none => []
    | some t =>
      match s.receiver? t with
      | none => []
      | some (c, m) =>
        (c.fields.filter fun f => !(onlyMutable && f.isFinal)).map fun f =>
          ⟨some (.var d.name t), t, f.name, f.ty.subst m⟩

namespace Gen

/-! ## Reading a field -/

/-- A field of a class as a target of type `t`, if its type can be made assignable. -/
def classField (t : Ty) (c : ClassDecl) (f : FieldDecl) : Gen (Option Target) := do
  let target ←
    if c.isGeneric then
      match if f.ty.hasVariables then t.unify? f.ty else some ∅ with
      | none => pure none
      | some fixed =>
        match ← instantiate c.ctor fixed with
        | none => pure none
        | some (receiver, m) => pure (some (Target.mk none receiver f.name (f.ty.subst m)))
    else pure (some ⟨none, c.type, f.name, f.ty⟩)
  return target.filter (·.ty.isAssignable t)

/-- The fields of declared classes as targets of type `t`. -/
def classFields (t : Ty) : List (ClassDecl × FieldDecl) → Gen (List Target)
  | [] => return []
  | (c, f) :: rest => do
    let target ← classField t c f
    return target.toList ++ (← classFields t rest)

/-- Declare a class with a field of type `t`. -/
def newField (e : Engine) (t : Ty) : Gen Target := do
  let (receiver, memberType) ← genMatchingClass e t true
  let field := ((← get).class? receiver.name).bind fun c => c.fields.find? (·.ty == memberType)
  match field with
  | some f => return ⟨none, receiver, f.name, t⟩
  | none => throw (.noField t)

/-- The finished classes' fields. -/
def finishedFields : Gen (List (ClassDecl × FieldDecl)) :=
  return (← get).finishedClasses.flatMap fun c => c.fields.map (c, ·)

/-- The value of a field of type `t`. -/
def genFieldAccess (e : Engine) (t : Ty) : Gen Expr := do
  let direct := ((← get).receiverFields false).filter (·.ty.isAssignable t)
  let target ← match ← pick direct with
    | some target => pure target
    | none =>
      match ← pick (← classFields t (← finishedFields)) with
      | some target => pure target
      | none => newField e t
  let receiver ← match target.receiver with
    | some r => pure r
    | none => nested 1 (e.expr target.receiverType {})
  return .field receiver target.name target.ty

/-! ## Assignment -/

/-- Something to assign where nothing visible can be: a field of a class behind a new receiver, or
a new variable. -/
def newAssignmentTarget (e : Engine) : Gen (Option Target) := do
  let l := (← get).language
  let fields ←
    if ← coin then pure ((← finishedFields).filter fun (_, f) => !f.isFinal) else pure []
  match ← pick fields with
  | some (c, f) =>
    match ← instantiateClass c with
    | none => return none
    | some (receiverType, m) =>
      let receiver ← nested 1 (e.expr receiverType {})
      return some ⟨some receiver, receiverType, f.name, f.ty.subst m⟩
  | none =>
    let t ← selectType {}
    if !(← get).canHoist t {} then return none
    else
      let v ← genVariableDecl e (some t) false none
      makeMutable v.name
      return some ⟨none, l.voidType, v.name, v.ty⟩

/-- Assign something; if nothing can be assigned, call a function for its effect. -/
def genAssignment (e : Engine) : Gen Expr := do
  let s ← get
  let void := s.language.voidType
  let vars := s.assignableVars.filterMap fun d =>
    d.varType?.map fun t => Target.mk none void d.name t
  let target ← match ← pick (vars ++ s.receiverFields true) with
    | some target => pure (some target)
    | none => newAssignmentTarget e
  match target with
  | none => genFuncCall e void
  | some target =>
    let value ← nested 1 (e.expr target.ty { placeholder := target.ty.hasWildcards })
    return .assign target.receiver target.name value

end Gen

end ProgramGen

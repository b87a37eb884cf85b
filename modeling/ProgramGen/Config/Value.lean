import ProgramGen.Config.Basic

/-!
# Configuration values

A configuration is read from a tree of values. A record takes its fields by name from a table, or by
position from a list. A field that is absent keeps its default, and a name that is not known is
ignored; but a value of the wrong kind makes the whole tree unreadable.
-/

namespace ProgramGen

/-- A value of a configuration document. -/
inductive ConfigValue where
  | null
  | bool (b : Bool)
  | int (i : Int)
  | float (x : Binary64)
  | text (s : String)
  | date
  | list (xs : List ConfigValue)
  | table (entries : List (String × ConfigValue))
  deriving Inhabited

namespace ConfigValue

/-- The size that a value stands for, if it fits in a machine word. -/
def size? : ConfigValue → Option Nat
  | int i => if 0 ≤ i ∧ i < UInt64.size then some i.toNat else none
  | _ => none

/-- The number that a value stands for; integers are taken for the nearest one. -/
def float? : ConfigValue → Option Binary64
  | float x => some x
  | int i => some (.ofInt i)
  | _ => none

end ConfigValue

/-- A field of the record type `α`: its name in documents, and how it is read and written. -/
structure ConfigField (α : Type) where
  name : String
  get : α → ConfigValue
  set? : α → ConfigValue → Option α

namespace ConfigField

variable {α β : Type}

/-- A field that holds a size. -/
def size (name : String) (get : α → Nat) (set : α → Nat → α) : ConfigField α :=
  ⟨name, fun a => .int (get a), fun a v => v.size?.map (set a)⟩

/-- A field that holds a probability. -/
def float (name : String) (get : α → Binary64) (set : α → Binary64 → α) : ConfigField α :=
  ⟨name, fun a => .float (get a), fun a v => v.float?.map (set a)⟩

/-- What a list of fields makes of a value, where `start` has the defaults. With `exact` a list may
not be longer than the record. A date counts as a table that has no known name. -/
def read? (fields : List (ConfigField α)) (exact : Bool) (start : α) : ConfigValue → Option α
  | .table entries =>
    entries.foldlM (fun a (name, v) =>
      match fields.find? (·.name == name) with
      | some f => f.set? a v
      | none => some a) start
  | .list xs =>
    if exact && xs.length > fields.length then none
    else (fields.zip xs).foldlM (fun a (f, v) => f.set? a v) start
  | .date => some start
  | _ => none

/-- The table of all fields. -/
def write (fields : List (ConfigField α)) (a : α) : ConfigValue :=
  .table (fields.map fun f => (f.name, f.get a))

/-- A field that holds a record, which has its own defaults. -/
def record (name : String) (fields : List (ConfigField β)) (exact : Bool) (default : β)
    (get : α → β) (set : α → β → α) : ConfigField α :=
  ⟨name, fun a => write fields (get a), fun a v => (read? fields exact default v).map (set a)⟩

end ConfigField

/-! ## The fields of a configuration -/

def ClassLimits.fields : List (ConfigField ClassLimits) := [
  .size "max_fields" (·.maxFields) fun c n => { c with maxFields := n },
  .size "max_funcs" (·.maxFuncs) fun c n => { c with maxFuncs := n }]

def FuncLimits.fields : List (ConfigField FuncLimits) := [
  .size "max_params" (·.maxParams) fun c n => { c with maxParams := n },
  .size "max_side_effects" (·.maxSideEffects) fun c n => { c with maxSideEffects := n }]

def Limits.fields (exact : Bool) : List (ConfigField Limits) := [
  .size "min_top_level" (·.minTopLevel) fun c n => { c with minTopLevel := n },
  .size "max_top_level" (·.maxTopLevel) fun c n => { c with maxTopLevel := n },
  .size "max_depth" (·.maxDepth) fun c n => { c with maxDepth := n },
  .size "max_var_decls" (·.maxVarDecls) fun c n => { c with maxVarDecls := n },
  .size "max_type_params" (·.maxTypeParams) fun c n => { c with maxTypeParams := n },
  .size "max_functional_params" (·.maxFunctionalParams) fun c n =>
    { c with maxFunctionalParams := n },
  .record "cls" ClassLimits.fields exact {} (·.cls) fun c x => { c with cls := x },
  .record "fn" FuncLimits.fields exact {} (·.func) fun c x => { c with func := x }]

def Probabilities.fields : List (ConfigField Probabilities) := [
  .float "function_expr" (·.functionExpr) fun c x => { c with functionExpr := x },
  .float "bounded_type_parameters" (·.boundedTypeParameters) fun c x =>
    { c with boundedTypeParameters := x },
  .float "parameterized_functions" (·.parameterizedFunctions) fun c x =>
    { c with parameterizedFunctions := x },
  .float "sam_coercion" (·.samCoercion) fun c x => { c with samCoercion := x },
  .float "func_ref" (·.funcRef) fun c x => { c with funcRef := x },
  .float "func_ref_call" (·.funcRefCall) fun c x => { c with funcRefCall := x },
  .float "existing_var" (·.existingVar) fun c x => { c with existingVar := x },
  .float "subtype_narrowing" (·.subtypeNarrowing) fun c x => { c with subtypeNarrowing := x },
  .float "return_param_type" (·.returnParamType) fun c x => { c with returnParamType := x },
  .float "default_params" (·.defaultParams) fun c x => { c with defaultParams := x },
  .float "abstract_body" (·.abstractBody) fun c x => { c with abstractBody := x },
  .float "loop_in_body" (·.loopInBody) fun c x => { c with loopInBody := x },
  .float "loop_string_concat" (·.loopStringConcat) fun c x => { c with loopStringConcat := x },
  .float "loop_shape" (·.loopShape) fun c x => { c with loopShape := x },
  .float "type_params_only" (·.typeParamsOnly) fun c x => { c with typeParamsOnly := x },
  .float "side_effect_decl" (·.sideEffectDecl) fun c x => { c with sideEffectDecl := x }]

namespace Config

def fields (exact : Bool) : List (ConfigField Config) := [
  .record "limits" (Limits.fields exact) exact {} (·.limits) fun c x => { c with limits := x },
  .record "prob" Probabilities.fields exact {} (·.prob) fun c x => { c with prob := x }]

/-- The configuration that a value describes. With `exact`, lists with surplus elements are
refused. -/
def ofValue? (exact : Bool) (v : ConfigValue) : Option Config :=
  ConfigField.read? (fields exact) exact {} v

/-- The value that describes a configuration, with every field. -/
def toValue (c : Config) : ConfigValue := ConfigField.write (fields true) c

end Config

end ProgramGen

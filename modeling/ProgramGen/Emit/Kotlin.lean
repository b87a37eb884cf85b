import ProgramGen.Class.Inheritance
import ProgramGen.Emit.KotlinType

/-!
# Programs in Kotlin

Top-level declarations stand at the level of the file, and the fields of a class are properties of
its constructor. An interface that closures can implement is declared as such.
-/

namespace ProgramGen

namespace Kotlin

/-- What the emitter knows besides the tree. -/
structure Settings where
  /-- Placeholders are refused. -/
  strict : Bool
  /-- The declarations of the program. -/
  context : Context

/-! ## Headers -/

/-- The words in front of a function. -/
def funcModifiers (f : FuncDecl) (owner : Option ClassKind) : String :=
  match owner with
  | none => ""
  | some kind =>
    if f.isAbstract then
      match kind, f.isOverride with
      | .interface, false => ""
      | .interface, true => "override "
      | _, false => "abstract "
      | _, true => "abstract override "
    else if f.isOverride then "override "
    else if !f.isFinal && kind != .interface then "open "
    else ""

/-- The words in front of a class. -/
def classKeyword (k : Settings) (c : ClassDecl) : String :=
  match c.kind with
  | .interface =>
    -- Whether a closure can implement the interface is seen from its own instance.
    let self := if c.isGeneric then c.ctor.ownInstance else c.type
    if isSam k.context self then "fun interface" else "interface"
  | .abstract => "abstract class"
  | .regular => if c.isFinal then "class" else "open class"

/-- A field as a property of the constructor. -/
def fieldText (classIsFinal : Bool) (f : FieldDecl) : String :=
  let modifier :=
    if f.isOverride then "override " else if f.canOverride && !classIsFinal then "open " else ""
  let keyword := if f.isFinal then "val" else "var"
  modifier ++ keyword ++ " " ++ f.name ++ ": " ++ typeText f.ty

/-- The entry function takes an array of strings and nothing else. -/
def isEntry (kind : FuncKind) (name : String) : Bool := kind == .topLevel && name == "main"

/-- The line that begins a function, given its parameters. -/
def funcHeader (f : FuncDecl) (owner : Option ClassKind) (params : String) : String :=
  let typeParams := typeParamsText f.typeParams
  let typeParams := if typeParams.isEmpty then "" else typeParams ++ " "
  let ret := if f.ret.isVoid then "" else ": " ++ typeText f.ret
  funcModifiers f owner ++ "fun " ++ typeParams ++ f.name ++ "(" ++ params ++ ")" ++ ret

/-- The line that begins a class, given its supertypes. -/
def classHeader (k : Settings) (c : ClassDecl) (supers : List String) : String :=
  let fields :=
    if c.fields.isEmpty then "" else "(" ++ commas (c.fields.map (fieldText c.isFinal)) ++ ")"
  let above := if supers.isEmpty then "" else " : " ++ commas supers
  classKeyword k c ++ " " ++ c.name ++ typeParamsText c.typeParams ++ fields ++ above

/-! ## Expressions in their places -/

/-- The text of an expression in front of a point, given its text elsewhere. A placeholder needs a
type there, or it would have no members. -/
def asReceiver (k : Settings) (e : Expr) (text : Emit String) : Emit String :=
  match e with
  | .unresolved t => if k.strict then text else return "(TODO() as " ++ typeText t ++ ")"
  | .lambda _ => return "(" ++ (← text) ++ ")"
  | _ => text

/-- The text of an expression as a branch; a closure's braces would be taken for a block's. -/
def asBranch (e : Expr) (text : Emit String) : Emit String :=
  match e with
  | .lambda _ => return "(" ++ (← text) ++ ")"
  | _ => text

/-- The text of an array, from those of its elements. To create one takes a type that is known when
the program runs. -/
def arrayText (t : Ty) (values : String) : String :=
  match t.args with
  | [] => "arrayOf<Any>(" ++ values ++ ")"
  | elem :: _ =>
    if t.isApplied && t.name == "ArrayList" then
      "arrayListOf<" ++ exactText elem ++ ">(" ++ values ++ ")"
    else if elem.hasVariables then "(arrayOf<Any?>(" ++ values ++ ") as " ++ typeText t ++ ")"
    else "arrayOf<" ++ exactText elem ++ ">(" ++ values ++ ")"

/-- The parameters of a closure, with the arrow behind them. -/
def lambdaHeader (params : List (String × Ty)) : String :=
  if params.isEmpty then ""
  else " " ++ commas (params.map fun (n, t) => n ++ ": " ++ typeText t) ++ " ->"

/-! ## The emitter -/

mutual

/-- The text of an expression. -/
def expr (k : Settings) : Expr → Emit String
  | .unresolved t =>
    if k.strict then throw (.unresolvedValue (typeText t)) else return "TODO()"
  | .const literal _ => return literal
  | .var name _ => return name
  | .block ⟨ss, _⟩ => return "run " ++ (← Emit.braced "" (stmts k ss))
  | .conditional c t f _ => do
    let cond ← expr k c
    let onTrue ← match t with
      | .block ⟨ss, _⟩ => Emit.braced "" (stmts k ss)
      | e => asBranch e (expr k e)
    let onFalse ← match f with
      | .block ⟨ss, _⟩ => Emit.braced "" (stmts k ss)
      | e => asBranch e (expr k e)
    return "(if (" ++ cond ++ ") " ++ onTrue ++ " else " ++ onFalse ++ ")"
  | .instanceOf var target _ => return "(" ++ var ++ " is " ++ typeText target ++ ")"
  | .logical op l r _ => Emit.binary op.symbol (expr k l) (expr k r)
  | .equality op l r _ => Emit.binary op.symbol (expr k l) (expr k r)
  | .comparison op l r _ => Emit.binary op.symbol (expr k l) (expr k r)
  | .arith op l r t cast => do
    let value ← Emit.binary op.symbol (expr k l) (expr k r)
    return if cast then value ++ ".to" ++ t.name ++ "()" else value
  | .new t args => return exactText t ++ "(" ++ commas (← exprs k args) ++ ")"
  | .field r name _ => return (← asReceiver k r (expr k r)) ++ "." ++ name
  | .call receiver name typeArgs args _ _ => do
    let args ← exprs k args
    let call := name ++ typeArgsText typeArgs ++ "(" ++ commas args ++ ")"
    match receiver with
    | some r => return (← asReceiver k r (expr k r)) ++ "." ++ call
    | none => return call
  | .funcRef receiver name _ =>
    match receiver with
    | some r => return (← asReceiver k r (expr k r)) ++ "::" ++ name
    | none => return "::" ++ name
  | .lambda l => lambda k l
  | .array t elems => return arrayText t (commas (← exprs k elems))
  | .cast v t => return "(" ++ (← expr k v) ++ " as " ++ typeText t ++ ")"
  | .assign receiver name v => do
    let value ← expr k v
    match receiver with
    | some r => return (← asReceiver k r (expr k r)) ++ "." ++ name ++ " = " ++ value
    | none => return name ++ " = " ++ value
  | .step name op => return name ++ op.symbol
  | .loop l => loop k l
  | .stringLength v _ => return (← asReceiver k v (expr k v)) ++ ".length"
  | .print v => return "println(" ++ (← expr k v) ++ ")"

def exprs (k : Settings) : List Expr → Emit (List String)
  | [] => return []
  | e :: es => do
    let text ← expr k e
    return text :: (← exprs k es)

def lambda (k : Settings) : LambdaDecl → Emit String
  | ⟨_, params, _, body, _, sam⟩ => do
    let header := lambdaHeader (params.map fun p => (p.name, p.ty))
    let text ← match body with
      | .block ⟨ss, _⟩ => Emit.braced header (stmts k ss)
      | e => pure ("\x7b" ++ header ++ " " ++ (← expr k e) ++ " \x7d")
    return match sam with
      | some target => typeText target ++ " " ++ text
      | none => text

def loop (k : Settings) : Loop → Emit String
  | .forEach var iterable ⟨ss, _⟩ => do
    let seq ← expr k iterable
    let body ← Emit.braced "" (stmts k ss)
    return "for (" ++ var ++ " in " ++ seq ++ ") " ++ body
  | .forRange var start stop ⟨ss, _⟩ => do
    let first ← expr k start
    let last ← expr k stop
    let body ← Emit.braced "" (stmts k ss)
    return "for (" ++ var ++ " in " ++ first ++ " until " ++ last ++ ") " ++ body
  | .whileCond c ⟨ss, _⟩ bodyFirst => do
    let cond ← expr k c
    let body ← Emit.braced "" (stmts k ss)
    return if bodyFirst then "do " ++ body ++ " while (" ++ cond ++ ")"
      else "while (" ++ cond ++ ") " ++ body

def stmt (k : Settings) : Stmt → Emit Unit
  | .decl d => decl k d
  | .expr e => do Emit.line (← expr k e)

def stmts (k : Settings) : List Stmt → Emit Unit
  | [] => return ()
  | s :: ss => do
    stmt k s
    stmts k ss

/-- The statements of a function's body; with `returns` the last expression is its result. -/
def bodyStmts (k : Settings) (returns : Bool) : List Stmt → Emit Unit
  | [] => return ()
  | [.expr e] => do
    let text ← expr k e
    Emit.line (if returns then "return " ++ text else text)
  | s :: ss => do
    stmt k s
    bodyStmts k returns ss

/-- Parameters and fields are written by their owners, and closures where they are used. -/
def decl (k : Settings) : Decl → Emit Unit
  | .var ⟨name, t, init, isFinal, inferred⟩ => do
    let value ← expr k init
    let type := if inferred then "" else ": " ++ typeText t
    Emit.line ((if isFinal then "val " else "var ") ++ name ++ type ++ " = " ++ value)
  | .func f => func k none f
  | .cls c => cls k c
  | .param _ => return ()
  | .field _ => return ()
  | .lambda _ => return ()

def params (k : Settings) : List ParamDecl → Emit (List String)
  | [] => return []
  | ⟨name, t, value⟩ :: ps => do
    let text ← match value with
      | none => pure ""
      | some e => pure (" = " ++ (← expr k e))
    return (name ++ ": " ++ typeText t ++ text) :: (← params k ps)

/-- A function, or a method of a class of the given kind. -/
def func (k : Settings) (owner : Option ClassKind) : FuncDecl → Emit Unit
  | ⟨name, ps, ret, body, kind, typeParams, isFinal, isOverride⟩ => do
    let params ←
      if isEntry kind name then pure (ps.map fun p => p.name ++ ": Array<String>")
      else params k ps
    -- Taken apart for the recursion, and put together again for the header.
    let f : FuncDecl := ⟨name, ps, ret, body, kind, typeParams, isFinal, isOverride⟩
    let header := funcHeader f owner (commas params)
    match body with
    | none => Emit.line header
    | some (.block ⟨ss, _⟩) =>
      Emit.enclosed (header ++ " \x7b") "\x7d" (bodyStmts k (!ret.isVoid) ss)
    | some e => do
      let value ← expr k e
      Emit.line (header ++ " = " ++ value)

def funcs (k : Settings) (owner : ClassKind) : List FuncDecl → Emit Unit
  | [] => return ()
  | f :: fs => do
    Emit.blank
    func k (some owner) f
    funcs k owner fs

def supers (k : Settings) : List SuperDecl → Emit (List String)
  | [] => return []
  | ⟨t, args⟩ :: ss => do
    let call ← match args with
      | none => pure ""
      | some es => pure ("(" ++ commas (← exprs k es) ++ ")")
    return (typeText t ++ call) :: (← supers k ss)

def cls (k : Settings) : ClassDecl → Emit Unit
  | ⟨name, kind, typeParams, above, fields, members, isFinal⟩ => do
    let c : ClassDecl := ⟨name, kind, typeParams, above, fields, members, isFinal⟩
    let header := classHeader k c (← supers k above)
    match members with
    | [] => Emit.line header
    | f :: fs =>
      Emit.enclosed (header ++ " \x7b") "\x7d" do
        func k (some kind) f
        funcs k kind fs

end

/-- A statement of a body that is not its last expression. -/
theorem bodyStmts_cons {k : Settings} {returns : Bool} {s : Stmt} {ss : List Stmt} (h : ∀ e, s = .expr e → ss ≠ []) :
    bodyStmts k returns (s :: ss) = (do stmt k s; bodyStmts k returns ss) := by
  rw [bodyStmts]
  exact h

/-- The top-level declarations of a program, with empty lines between them. -/
def declarations (k : Settings) (ds : List Decl) : Emit Unit :=
  (ds.filter fun d => d.kind != .lambda).forM fun d => do
    Emit.blank
    decl k d

end Kotlin

end ProgramGen

import ProgramGen.Emit.JavaType
import ProgramGen.Scope.Context

/-!
# Programs in Java

Everything stands in one class: top-level variables and functions are its static members, classes
are nested in it, and at its end there is an interface for each number of parameters that a function
type has. Blocks and loops have no value in Java; one that stands where a value is needed is an
error.
-/

namespace ProgramGen

namespace Java

/-- The class around the program. -/
def mainClass : String := "Main"

/-! ## Headers -/

/-- The words in front of a top-level function or of a method in a class of the given kind. -/
def methodModifiers (f : FuncDecl) (owner : Option ClassKind) : String :=
  match owner with
  | none => if f.kind == .topLevel && f.name == "main" then "public static " else "static "
  | some .interface => ""
  | some _ => if f.isAbstract then "public abstract " else "public "

/-- The line that begins a function. -/
def methodHeader (f : FuncDecl) (owner : Option ClassKind) : Emit String := do
  let typeArgs ← typeParams f.typeParams
  let typeArgs := if typeArgs.isEmpty then "" else typeArgs ++ " "
  let ret ← returnType f.ret
  let params ← f.params.mapM fun p => return (← type p.ty) ++ " " ++ p.name
  return methodModifiers f owner ++ typeArgs ++ ret ++ " " ++ f.name ++ "(" ++ commas params ++ ")"

def classKeyword (kind : ClassKind) (isFinal : Bool) : String :=
  match kind with
  | .interface => "interface"
  | .abstract => "static abstract class"
  | .regular => if isFinal then "static final class" else "static class"

/-- Supertypes behind a keyword, if there are any. -/
def superClause (keyword : String) (names : List String) : String :=
  if names.isEmpty then "" else " " ++ keyword ++ " " ++ commas names

/-- The supertypes of a class as they are written. -/
structure Supers where
  extended : List String
  implemented : List String
  /-- The arguments for the constructor of the superclass. -/
  args : Option String

/-- Typed parameters. -/
def paramList (params : List (String × Ty)) : Emit String :=
  return commas (← params.mapM fun (n, t) => return (← type t) ++ " " ++ n)

/-- The fields of a class, as members and as the parameters of its constructor. -/
def classFields (name : String) (isInterface : Bool) (fields : List FieldDecl)
    (superArgs : Option String) : Emit Unit := do
  fields.forM fun f => do
    let t ← type f.ty
    Emit.line ((if f.isFinal then "final " else "") ++ t ++ " " ++ f.name ++ ";")
  if !isInterface && (!fields.isEmpty || superArgs.isSome) then
    if !fields.isEmpty then Emit.blank
    let params ← paramList (fields.map fun f => (f.name, f.ty))
    Emit.enclosed (name ++ "(" ++ params ++ ") \x7b") "\x7d" do
      match superArgs with
      | some args => Emit.line ("super(" ++ args ++ ");")
      | none => pure ()
      fields.forM fun f => Emit.line ("this." ++ f.name ++ " = " ++ f.name ++ ";")

/-! ## Expressions in their places -/

/-- The name of the unboxed form of a type. -/
def unboxedName? (t : Ty) : Option String := t.builtinKind?.bind Language.java.primitiveName?

/-- Run `body` where a condition holds: a test of a variable's type narrows the variable. -/
def narrowed {α : Type} (cond : Expr) (body : Emit α) : Emit α :=
  match cond with
  | .instanceOf var target _ => fun p =>
    let (r, p') := body { p with casts := (var, target) :: p.casts }
    (r, { p' with casts := p'.casts.tail })
  | _ => body

/-- A variable; one that is narrowed has to be cast. -/
def variableText (name : String) : Emit String := do
  match (← get).casts.find? (·.1 == name) with
  | some (_, t) => return "((" ++ (← type t) ++ ") " ++ name ++ ")"
  | none => return name

/-- The text of an expression in front of a point, given its text elsewhere. The result of
arithmetic is unboxed and has no members. -/
def asReceiver (e : Expr) (text : Emit String) : Emit String :=
  match e with
  | .arith _ _ _ t _ => do
    if (unboxedName? t).isSome then
      let name ← type t
      return "((" ++ name ++ ") " ++ (← text) ++ ")"
    else text
  | _ => text

/-- Whether an expression can stand as a statement. -/
def isStatement : Expr → Bool
  | .new .. => true
  | .call .. => true
  | .assign .. => true
  | .step .. => true
  | .print _ => true
  | _ => false

/-- A reference to a function. One without result does not fit a function interface, and is wrapped
in a closure. -/
def funcRefText (receiver name : String) (signature : Ty) : Emit String := do
  useArities (arities signature)
  match signature.functionSignature? with
  | some (types, ret) =>
    if ret.isVoid then
      let named := types.mapIdx fun i t => ("p" ++ toString i, t)
      let params ← paramList named
      return "(" ++ params ++ ") -> \x7b " ++ receiver ++ "." ++ name ++ "(" ++
        commas (named.map (·.1)) ++ "); return null; \x7d"
    else return receiver ++ "::" ++ name
  | none => return receiver ++ "::" ++ name

/-- The text of an array or list, from those of its elements. An array of a generic type is created
without type arguments and cast. -/
def arrayText (t : Ty) (values : List String) : Emit String := do
  let elem := t.args.head?.getD Language.java.anyType
  if t.isApplied && t.name.endsWith "ArrayList" then
    let name ← exactType elem
    let list := "new java.util.ArrayList<" ++ name ++ ">("
    return if values.isEmpty then list ++ ")"
      else list ++ "java.util.Arrays.<" ++ name ++ ">asList(" ++ commas values ++ "))"
  else
    let elem := elem.withoutWildcards Language.java.anyType
    match elem with
    | .param _ =>
      return "((" ++ (← type elem) ++ "[]) new Object[]\x7b" ++ commas values ++ "\x7d)"
    | .applied .. =>
      let exact ← exactType elem
      let raw ← rawType elem
      return "((" ++ exact ++ "[]) new " ++ raw ++ "[]\x7b" ++ commas values ++ "\x7d)"
    | _ => return "new " ++ (← exactType elem) ++ "[]\x7b" ++ commas values ++ "\x7d"

/-! ## The emitter -/

mutual

/-- The text of an expression where a value is needed. -/
def expr (strict : Bool) : Expr → Emit String
  | .unresolved t => do
    if strict then throw (.unresolvedValue (← type t))
    else return "((" ++ (← exactType t) ++ ") null)"
  | .const literal _ => return literal
  | .var name _ => variableText name
  | .block _ => throw .blockAsValue
  | .conditional c t f _ => do
    let cond ← expr strict c
    let onTrue ← narrowed c (expr strict t)
    let onFalse ← expr strict f
    return "(" ++ cond ++ " ? " ++ onTrue ++ " : " ++ onFalse ++ ")"
  | .instanceOf var target _ => return "(" ++ var ++ " instanceof " ++ (← rawType target) ++ ")"
  | .logical op l r _ => Emit.binary op.symbol (expr strict l) (expr strict r)
  | .equality op l r _ => Emit.binary op.symbol (expr strict l) (expr strict r)
  | .comparison op l r _ => Emit.binary op.symbol (expr strict l) (expr strict r)
  | .arith op l r t cast => do
    let value ← Emit.binary op.symbol (expr strict l) (expr strict r)
    return match cast, unboxedName? t with
      | true, some name => "((" ++ name ++ ") " ++ value ++ ")"
      | _, _ => value
  | .new t args => do
    let name ← exactType t
    return "new " ++ name ++ "(" ++ commas (← exprs strict args) ++ ")"
  | .field r name _ => return (← expr strict r) ++ "." ++ name
  | .call receiver name typeArgs args _ ofValue => do
    let args ← exprs strict args
    if ofValue then return (← variableText name) ++ ".apply(" ++ commas args ++ ")"
    else
      let typeArgs ← callTypeArgs typeArgs
      let target ← match receiver with
        | some r => asReceiver r (expr strict r)
        | none => pure mainClass
      return target ++ "." ++ typeArgs ++ name ++ "(" ++ commas args ++ ")"
  | .funcRef receiver name signature => do
    let target ← match receiver with
      | some r => asReceiver r (expr strict r)
      | none => pure mainClass
    funcRefText target name signature
  | .lambda l => lambda strict l
  | .array t elems => do arrayText t (← exprs strict elems)
  | .cast v t => do
    let name ← type t
    return "((" ++ name ++ ") " ++ (← expr strict v) ++ ")"
  | .assign receiver name v => do
    let value ← expr strict v
    match receiver with
    | some r => return (← expr strict r) ++ "." ++ name ++ " = " ++ value
    | none => return name ++ " = " ++ value
  | .step name op => return name ++ op.symbol
  | .loop _ => throw .loopAsValue
  | .stringLength v _ => return (← expr strict v) ++ ".length()"
  | .print v => return "System.out.println(" ++ (← expr strict v) ++ ")"

def exprs (strict : Bool) : List Expr → Emit (List String)
  | [] => return []
  | e :: es => do
    let text ← expr strict e
    return text :: (← exprs strict es)

/-- A closure. One that implements a function interface returns something even without a result. -/
def lambda (strict : Bool) : LambdaDecl → Emit String
  | ⟨_, params, ret, body, signature, sam⟩ => do
    let params ← paramList (params.map fun p => (p.name, p.ty))
    -- The interface is needed even where no declared type mentions it.
    if sam.isNone then useArities (arities signature)
    match body with
    | .block ⟨ss, _⟩ =>
      let text ← Emit.detached do
        bodyStmts strict (!ret.isVoid) ss
        if ret.isVoid && sam.isNone then Emit.line "return null;"
      return "(" ++ params ++ ") -> \x7b\n" ++ text ++ (← Emit.pad) ++ "\x7d"
    | e =>
      if ret.isVoid then
        let text ← Emit.detached do
          exprStmt strict (expr strict e) e
          if sam.isNone then Emit.line "return null;"
        return "(" ++ params ++ ") -> \x7b\n" ++ text ++ (← Emit.pad) ++ "\x7d"
      else return "(" ++ params ++ ") -> " ++ (← expr strict e)

/-- An expression as a statement, given its text as a value. A conditional becomes a statement; what
is not one is the argument of a call. -/
def exprStmt (strict : Bool) (value : Emit String) : Expr → Emit Unit
  | .block ⟨ss, _⟩ => do Emit.line (← Emit.braced "" (stmts strict ss))
  | .conditional c t f _ => do
    let cond ← expr strict c
    Emit.line ("if (" ++ cond ++ ") \x7b")
    Emit.indented (narrowed c (exprStmt strict (expr strict t) t))
    Emit.line "\x7d else \x7b"
    Emit.indented (exprStmt strict (expr strict f) f)
    Emit.line "\x7d"
  | .loop l => loop strict l
  | .unresolved t => do
    -- A placeholder for nothing is written as nothing.
    if t.isVoid then
      if strict then throw (.unresolvedValue t.text)
    else Emit.line ("java.util.Objects.hashCode(" ++ (← value) ++ ");")
  | e => do
    let text ← value
    Emit.line (if isStatement e then text ++ ";" else "java.util.Objects.hashCode(" ++ text ++ ");")

def loop (strict : Bool) : Loop → Emit Unit
  | .forEach var iterable ⟨ss, _⟩ => do
    let elem := (iterable.ty?.bind fun t => t.args.head?).getD Language.java.anyType
    let name ← exactType elem
    let seq ← expr strict iterable
    let body ← Emit.braced "" (stmts strict ss)
    Emit.line ("for (" ++ name ++ " " ++ var ++ " : " ++ seq ++ ") " ++ body)
  | .forRange var start stop ⟨ss, _⟩ => do
    let first ← expr strict start
    let last ← expr strict stop
    let body ← Emit.braced "" (stmts strict ss)
    Emit.line ("for (int " ++ var ++ " = " ++ first ++ "; " ++ var ++ " < " ++ last ++ "; " ++
      var ++ "++) " ++ body)
  | .whileCond c ⟨ss, _⟩ bodyFirst => do
    let cond ← expr strict c
    let body ← Emit.braced "" (stmts strict ss)
    Emit.line (if bodyFirst then "do " ++ body ++ " while (" ++ cond ++ ");"
      else "while (" ++ cond ++ ") " ++ body)

def stmt (strict : Bool) : Stmt → Emit Unit
  | .decl d => localDecl strict d
  | .expr e => exprStmt strict (expr strict e) e

def stmts (strict : Bool) : List Stmt → Emit Unit
  | [] => return ()
  | s :: ss => do
    stmt strict s
    stmts strict ss

/-- The statements of a body; with `returns` the last expression is its result. -/
def bodyStmts (strict returns : Bool) : List Stmt → Emit Unit
  | [] => return ()
  | [.expr e] => do
    if returns then Emit.line ("return " ++ (← expr strict e) ++ ";")
    else exprStmt strict (expr strict e) e
  | s :: ss => do
    stmt strict s
    bodyStmts strict returns ss

/-- A declaration inside a body. -/
def localDecl (strict : Bool) : Decl → Emit Unit
  | .var ⟨name, t, init, isFinal, inferred⟩ => do
    let type ← if inferred && !t.isBuiltin then pure "var" else type t
    let value ← expr strict init
    Emit.line ((if isFinal then "final " else "") ++ type ++ " " ++ name ++ " = " ++ value ++ ";")
  | .func f => nestedFunc strict f
  | .cls c => cls strict c
  | .param _ => return ()
  | .field _ => return ()
  | .lambda _ => return ()

/-- A function inside a body, as a variable that holds a closure. -/
def nestedFunc (strict : Bool) : FuncDecl → Emit Unit
  | ⟨name, params, ret, body, _, _, _, _⟩ => do
    let arity := params.length
    useArities [arity]
    let args ← (params.map (·.ty) ++ [ret]).mapM typeArg
    let named ← paramList (params.map fun p => (p.name, p.ty))
    let first := "final Function" ++ toString arity ++ "<" ++ commas args ++ "> " ++ name ++
      " = (" ++ named ++ ") -> \x7b"
    Emit.enclosed first "\x7d;" do
      match body with
      | none => throw (.nestedWithoutBody name)
      | some (.block ⟨ss, _⟩) =>
        bodyStmts strict (!ret.isVoid) ss
        if ret.isVoid then Emit.line "return null;"
      | some e =>
        if ret.isVoid then
          exprStmt strict (expr strict e) e
          Emit.line "return null;"
        else Emit.line ("return " ++ (← expr strict e) ++ ";")

/-- A top-level function, or a method of a class of the given kind. -/
def method (strict : Bool) (owner : Option ClassKind) : FuncDecl → Emit Unit
  | ⟨name, params, ret, body, kind, typeParams, isFinal, isOverride⟩ => do
    let f : FuncDecl := ⟨name, params, ret, body, kind, typeParams, isFinal, isOverride⟩
    let header ← methodHeader f owner
    match body with
    | none => Emit.line (header ++ ";")
    | some (.block ⟨ss, _⟩) =>
      Emit.enclosed (header ++ " \x7b") "\x7d" (bodyStmts strict (!ret.isVoid) ss)
    | some e =>
      Emit.enclosed (header ++ " \x7b") "\x7d" do
        if ret.isVoid then exprStmt strict (expr strict e) e
        else Emit.line ("return " ++ (← expr strict e) ++ ";")

def methods (strict : Bool) (owner : ClassKind) : List FuncDecl → Emit Unit
  | [] => return ()
  | f :: fs => do
    Emit.blank
    method strict (some owner) f
    methods strict owner fs

/-- The supertypes of a class. Interfaces extend interfaces; classes implement them. -/
def supers (strict isInterface : Bool) : List SuperDecl → Supers → Emit Supers
  | [], out => return out
  | ⟨t, args⟩ :: rest, out => do
    let name ← type t
    match args with
    | some es => do
      let args := commas (← exprs strict es)
      supers strict isInterface rest
        { out with extended := out.extended ++ [name], args := some args }
    | none =>
      supers strict isInterface rest
        (if isInterface then { out with extended := out.extended ++ [name] }
        else { out with implemented := out.implemented ++ [name] })

def cls (strict : Bool) : ClassDecl → Emit Unit
  | ⟨name, kind, params, above, fields, members, isFinal⟩ => do
    let typeArgs ← typeParams params
    let above ← supers strict (kind == .interface) above ⟨[], [], none⟩
    let header := classKeyword kind isFinal ++ " " ++ name ++ typeArgs ++
      superClause "extends" above.extended ++ superClause "implements" above.implemented
    Emit.enclosed (header ++ " \x7b") "\x7d" do
      classFields name (kind == .interface) fields above.args
      methods strict kind members

end

/-- A statement of a body that is not its result. -/
theorem bodyStmts_cons {strict returns : Bool} {s : Stmt} {ss : List Stmt} (h : ∀ e, s = .expr e → ss ≠ []) :
    bodyStmts strict returns (s :: ss) = (do stmt strict s; bodyStmts strict returns ss) := by
  rw [bodyStmts]
  exact h

/-- A closure whose body is no block. -/
theorem lambda_of_ne_block {strict : Bool} {l : LambdaDecl} (h : ∀ b, l.body ≠ .block b) : lambda strict l = (do
    let params ← paramList (l.params.map fun p => (p.name, p.ty))
    if l.samTarget.isNone then useArities (arities l.signature)
    if l.ret.isVoid then
      let text ← Emit.detached do
        exprStmt strict (expr strict l.body) l.body
        if l.samTarget.isNone then Emit.line "return null;"
      return "(" ++ params ++ ") -> \x7b\n" ++ text ++ (← Emit.pad) ++ "\x7d"
    else return "(" ++ params ++ ") -> " ++ (← expr strict l.body)) := by
  obtain ⟨name, params, ret, body, signature, sam⟩ := l
  unfold lambda
  cases body with
  | block b => exact absurd rfl (h b)
  | _ => rfl

/-- A function inside a body, of which the body is no block. -/
theorem nestedFunc_of_ne_block {strict : Bool} {f : FuncDecl} {body : Expr} (hbody : f.body = some body)
    (h : ∀ b, body ≠ .block b) :
    nestedFunc strict f = (do
      useArities [f.params.length]
      let args ← (f.params.map (·.ty) ++ [f.ret]).mapM typeArg
      let named ← paramList (f.params.map fun p => (p.name, p.ty))
      let first := "final Function" ++ toString f.params.length ++ "<" ++ commas args ++ "> " ++ f.name ++
        " = (" ++ named ++ ") -> \x7b"
      Emit.enclosed first "\x7d;" do
        if f.ret.isVoid then
          exprStmt strict (expr strict body) body
          Emit.line "return null;"
        else Emit.line ("return " ++ (← expr strict body) ++ ";")) := by
  obtain ⟨name, params, ret, _, _, _, _, _⟩ := f
  cases hbody
  unfold nestedFunc
  cases body with
  | block b => exact absurd rfl (h b)
  | _ => rfl

/-- A function of which the body is no block. -/
theorem method_of_ne_block {strict : Bool} {f : FuncDecl} {owner : Option ClassKind} {body : Expr}
    (hbody : f.body = some body) (h : ∀ b, body ≠ .block b) :
    method strict owner f = (do
      let header ← methodHeader f owner
      Emit.enclosed (header ++ " \x7b") "\x7d" do
        if f.ret.isVoid then exprStmt strict (expr strict body) body
        else Emit.line ("return " ++ (← expr strict body) ++ ";")) := by
  obtain ⟨name, params, ret, _, _, _, _, _⟩ := f
  cases hbody
  unfold method
  cases body with
  | block b => exact absurd rfl (h b)
  | _ => rfl

/-! ## Programs -/

/-- A top-level declaration as a member of the class around the program. -/
def member (strict : Bool) : Decl → Emit Unit
  | .var v => do
    let t ← type v.ty
    let value ← expr strict v.init
    Emit.line ((if v.isFinal then "static final " else "static ") ++ t ++ " " ++ v.name ++ " = " ++
      value ++ ";")
  | .func f => method strict none f
  | .cls c => cls strict c
  | .param _ => return ()
  | .field _ => return ()
  | .lambda _ => return ()

/-- The interface of the functions of `arity` parameters. -/
def functionInterface (arity : Nat) : String :=
  let names := (List.range arity).map fun i => toString (i + 1)
  let params := names.map fun n => "A" ++ n ++ " a" ++ n
  "interface Function" ++ toString arity ++ "<" ++ commas (names.map ("A" ++ ·) ++ ["R"]) ++
    "> \x7b R apply(" ++ commas params ++ "); \x7d"

/-- Members with empty lines between them. -/
def members (strict : Bool) : List Decl → Emit Unit
  | [] => return ()
  | [d] => member strict d
  | d :: ds => do
    member strict d
    Emit.blank
    members strict ds

/-- The top-level declarations of a program in their class, and the function interfaces they use. -/
def declarations (strict : Bool) (ds : List Decl) : Emit Unit :=
  Emit.enclosed ("class " ++ mainClass ++ " \x7b") "\x7d" do
    members strict (ds.filter fun d => d.kind != .lambda)
    match (← get).arities with
    | [] => pure ()
    | arities =>
      Emit.blank
      arities.forM fun n => Emit.line (functionInterface n)

end Java

end ProgramGen

import ProgramGen.Synthesis.Engine

/-!
# Literals and operators

Values that need no declaration: constants, array literals, and operators on generated operands.
-/

namespace ProgramGen

namespace Gen

/-! ## Constants -/

/-- An integer from `lo` to `hi` in decimal. -/
def integerText (f : IntFormat) (lo hi : Int) : Gen String :=
  return toString (← rand (Rand.uniform f lo hi))

/-- A lowercase letter. -/
def letter : Gen Char :=
  return Char.ofNat (← rand (Rand.uniform .u8 97 122)).toNat

/-- Two integers with a point between them. -/
def decimalText : Gen String := do
  let whole ← integerText .i32 0 999
  let fraction ← integerText .i32 0 99
  return whole ++ "." ++ fraction

/-- A literal of a builtin type, or none if the type has no literals. -/
def literalText (l : Language) : BuiltinKind → Gen (Option String)
  | .integer => return some (← integerText .i32 (-1000) 1000)
  | .number => return some (← integerText .i32 (-1000) 1000)
  | .short => do
    let n ← integerText .i16 (-1000) 1000
    return some (match l with | .kotlin => "(" ++ n ++ ").toShort()" | .java => "(short) " ++ n)
  | .byte => do
    let n ← integerText .i8 (-128) 127
    return some (match l with | .kotlin => "(" ++ n ++ ").toByte()" | .java => "(byte) " ++ n)
  | .long => return some ((← integerText .i64 (-10000) 10000) ++ "L")
  | .float => return some ((← decimalText) ++ "f")
  | .double => return some (← decimalText)
  | .char => return some ("'" ++ String.singleton (← letter) ++ "'")
  | .string => do
    let n ← rand (Rand.uniform .i32 1 10)
    let cs ← times n.toNat letter
    return some ("\"" ++ String.ofList cs ++ "\"")
  | .boolean => return some (if ← coin then "true" else "false")
  | .any => return none
  | .nothing => return none
  | .void => return none

/-- An array or list of a few leaves, written as a literal. -/
def genArray (e : Engine) (t : Ty) : Gen Expr := do
  let l := (← get).language
  let elem ← match t.args with
    | a :: _ => concretize a
    | [] => pure l.anyType
  let written := match t with
    | .applied c _ => c.apply [elem]
    | _ => l.arrayOf elem
  let count ← rand (Rand.uniform .i32 0 3)
  let elems ← nested 1 (times count.toNat (e.expr elem .leaves))
  return .array written elems

/-- A constant; a type without literals gets a new value. -/
def genConstant (e : Engine) (t : Ty) : Gen Expr := do
  match t with
  | .applied .. => genArray e t
  | .builtin _ k _ _ _ =>
    match ← literalText (← get).language k with
    | some text => return .const text t
    | none => e.new t false
  | _ => e.new t false

/-! ## Operators -/

/-- Two operands, one level deeper. -/
def genOperands (e : Engine) (lhs rhs : Ty) (o : ExprOpts) : Gen (Expr × Expr) :=
  nested 1 do
    let a ← e.expr lhs o
    let b ← e.expr rhs o
    return (a, b)

def genLogical (e : Engine) (t : Ty) : Gen Expr := do
  let op := if ← coin then LogicalOp.and else .or
  let (a, b) ← genOperands e t t {}
  return .logical op a b t

def genEquality (e : Engine) (t : Ty) : Gen Expr := do
  let operand ← selectType { noFunctions := true }
  let op := if ← coin then EqOp.eq else .ne
  let (a, b) ← genOperands e operand operand .exact
  return .equality op a b t

/-- Comparison of two numbers of any kind, of characters, or of strings where that exists. -/
def genComparison (e : Engine) (t : Ty) : Gen Expr := do
  let l := (← get).language
  let others := match l with
    | .kotlin => [l.builtin .char, l.stringType]
    | .java => [l.builtin .char]
  match ← pick (l.numberTypes ++ others) with
  | none => genConstant e t
  | some lhs =>
    let rhs ←
      if lhs.builtinKind?.any BuiltinKind.isNumeric then
        pure ((← pick l.numberTypes).getD lhs)
      else pure lhs
    let op := (← pick CmpOp.all).getD .lt
    let (a, b) ← genOperands e lhs rhs {}
    return .comparison op a b t

end Gen

/-- The types whose arithmetic gives a `t`, each with the operators that do. -/
def Language.arithOperands (l : Language) (t : Ty) : List (Ty × List Language.BinaryOp) :=
  (l.numberTypes ++ [l.stringType]).filterMap fun operand =>
    match (l.binaryOps operand).filter (·.result == t) with
    | [] => none
    | ops => some (operand, ops)

namespace Gen

def genArith (e : Engine) (t : Ty) : Gen Expr := do
  match ← pick ((← get).language.arithOperands t) with
  | none => genConstant e t
  | some (operand, ops) =>
    let (op, cast) := match ← pick ops with
      | some b => (b.op, b.cast)
      | none => (.add, false)
    let (a, b) ← genOperands e operand operand {}
    return .arith op a b t cast

end Gen

end ProgramGen

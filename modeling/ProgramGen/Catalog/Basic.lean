import ProgramGen.Ty.Subtype
import ProgramGen.Syntax.Op

/-!
# The types of a language

Each language provides a top type, a number type with six numeric types below it, characters,
strings, booleans and a type without values; generic arrays, lists and iterators; and a class of
function types for every number of parameters. Kotlin also has a bottom type. Java has an unboxed
form beside most of its boxed types.
-/

namespace ProgramGen

namespace Language

/-! ## Builtin types -/

/-- The name of a builtin type. -/
def builtinName : Language → BuiltinKind → String
  | kotlin, .any => "Any"
  | kotlin, .nothing => "Nothing"
  | kotlin, .void => "Unit"
  | kotlin, .integer => "Int"
  | kotlin, .char => "Char"
  | java, .any => "Object"
  | java, .nothing => "Object"
  | java, .void => "void"
  | java, .integer => "Integer"
  | java, .char => "Character"
  | _, .number => "Number"
  | _, .short => "Short"
  | _, .long => "Long"
  | _, .byte => "Byte"
  | _, .float => "Float"
  | _, .double => "Double"
  | _, .string => "String"
  | _, .boolean => "Boolean"

/-- The name of the unboxed form. -/
def primitiveName? : Language → BuiltinKind → Option String
  | kotlin, _ => none
  | java, .integer => some "int"
  | java, .short => some "short"
  | java, .long => some "long"
  | java, .byte => some "byte"
  | java, .float => some "float"
  | java, .double => some "double"
  | java, .char => some "char"
  | java, .boolean => some "boolean"
  | java, _ => none

/-- Whether there is a type below all others. -/
def hasBottom : Language → Bool
  | kotlin => true
  | java => false

/-- The top type. -/
def anyType (l : Language) : Ty := .builtin (l.builtinName .any) .any l false []

def numberType (l : Language) : Ty := .builtin (l.builtinName .number) .number l false [l.anyType]

/-- The reference form of a builtin type. Without a bottom type, the top type stands for it. -/
def builtin (l : Language) : BuiltinKind → Ty
  | .any => l.anyType
  | .nothing =>
    if l.hasBottom then .builtin (l.builtinName .nothing) .nothing l false [] else l.anyType
  | k => .builtin (l.builtinName k) k l false [if k.isNumeric then l.numberType else l.anyType]

/-- The unboxed form of a builtin type. -/
def primitive? (l : Language) (k : BuiltinKind) : Option Ty :=
  (l.primitiveName? k).map fun n => .builtin n k l true []

def voidType (l : Language) : Ty := l.builtin .void
def integerType (l : Language) : Ty := l.builtin .integer
def longType (l : Language) : Ty := l.builtin .long
def floatType (l : Language) : Ty := l.builtin .float
def doubleType (l : Language) : Ty := l.builtin .double
def stringType (l : Language) : Ty := l.builtin .string
def booleanType (l : Language) : Ty := l.builtin .boolean

/-- The bottom type, where there is one. -/
def bottomType? (l : Language) : Option Ty :=
  if l.hasBottom then some (l.builtin .nothing) else none

/-! ## Generic classes -/

def arrayName : Language → String
  | _ => "Array"

def iteratorName : Language → String
  | kotlin => "Iterator"
  | java => "java.util.Iterator"

def arrayListName : Language → String
  | kotlin => "ArrayList"
  | java => "java.util.ArrayList"

/-- A builtin class of one parameter, directly below the top type. -/
def genericCtor (l : Language) (name : String) (v : Variance) : TypeCtor :=
  ⟨name, [⟨"T", v, none⟩], [l.anyType], true⟩

/-- Arrays; they are covariant in both languages. -/
def arrayCtor (l : Language) : TypeCtor := l.genericCtor l.arrayName .covariant

def iteratorCtor (l : Language) : TypeCtor := l.genericCtor l.iteratorName .invariant

def arrayListCtor (l : Language) : TypeCtor := l.genericCtor l.arrayListName .invariant

/-- Functions of `arity` parameters, whose types come first; the result type is last. -/
def functionCtor (l : Language) (arity : Nat) : TypeCtor :=
  let params := (List.range arity).map fun i => TypeParam.plain ("A" ++ toString (i + 1))
  ⟨"Function" ++ toString arity, params ++ [.plain "R"], [l.anyType], true⟩

def arrayOf (l : Language) (elem : Ty) : Ty := l.arrayCtor.apply [elem]

def arrayListOf (l : Language) (elem : Ty) : Ty := l.arrayListCtor.apply [elem]

def iteratorOf (l : Language) (elem : Ty) : Ty := l.iteratorCtor.apply [elem]

def functionType (l : Language) (params : List Ty) (result : Ty) : Ty :=
  (l.functionCtor params.length).apply (params ++ [result])

/-! ## Selections -/

def numberTypes (l : Language) : List Ty :=
  [.integer, .short, .long, .byte, .float, .double].map l.builtin

/-- The types that a value may be declared with: all with values, and the class of arrays. -/
def valueTypes (l : Language) : List Ty :=
  [l.anyType, l.numberType] ++ l.numberTypes ++
    [l.builtin .char, l.stringType, l.booleanType, .constructor l.arrayCtor]

/-- Whether a type is one of the language's own. -/
def provides (l : Language) : Ty → Bool
  | .builtin _ _ l' _ _ => l' = l
  | .applied c _ => c.builtin
  | .constructor c => c.builtin
  | _ => false

/-! ## Arithmetic -/

/-- An arithmetic operator on operands of some type. -/
structure BinaryOp where
  op : ArithOp
  result : Ty
  /-- The result is cast back to the type of the operands. -/
  cast : Bool

/-- The operators on operands of type `t`. Types narrower than an integer are promoted; cast back,
the result has their own type. -/
def binaryOps (l : Language) (t : Ty) : List BinaryOp :=
  let onAll (result : Ty) (cast : Bool) := ArithOp.all.map fun op => BinaryOp.mk op result cast
  match t.builtinKind? with
  | some .integer => onAll l.integerType false
  | some .short => onAll l.integerType false ++ onAll (l.builtin .short) true
  | some .byte => onAll l.integerType false ++ onAll (l.builtin .byte) true
  | some .long => onAll l.longType false
  | some .float => onAll l.floatType false
  | some .double => onAll l.doubleType false
  | some .string => [⟨.add, l.stringType, false⟩]
  | _ => []

end Language

/-! ## Boxing -/

/-- The reference form of a type. -/
def Ty.boxed : Ty → Ty
  | .builtin n k l p s => if p then l.builtin k else .builtin n k l p s
  | t => t

/-- Subtyping where an unboxed type and its reference form may stand for each other. -/
def Ty.isAssignable (a b : Ty) : Bool :=
  a.isSubtype b || ((a.isPrimitive || b.isPrimitive) && a.boxed.isSubtype b.boxed)

end ProgramGen

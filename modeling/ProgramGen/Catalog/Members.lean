import ProgramGen.Catalog.Basic
import ProgramGen.Syntax.Basic

/-!
# Methods of builtin types

The methods that generated programs call on numbers, characters, strings and booleans. None of them
has a body here.
-/

namespace ProgramGen

/-- A method by its name, its parameters, and what it returns. -/
structure BuiltinMethod where
  name : String
  params : List (String × BuiltinKind)
  ret : BuiltinKind

namespace Language

/-- The names of the conversions between numbers. -/
def conversionName : Language → BuiltinKind → String
  | kotlin, .byte => "toByte"
  | kotlin, .double => "toDouble"
  | kotlin, .float => "toFloat"
  | kotlin, .integer => "toInt"
  | kotlin, .short => "toShort"
  | kotlin, .long => "toLong"
  | java, .byte => "byteValue"
  | java, .double => "doubleValue"
  | java, .float => "floatValue"
  | java, .integer => "intValue"
  | java, .short => "shortValue"
  | java, .long => "longValue"
  | _, _ => "toString"

/-- A conversion to each of the given kinds. -/
def conversions (l : Language) (kinds : List BuiltinKind) : List BuiltinMethod :=
  kinds.map fun k => ⟨l.conversionName k, [], k⟩

def stringMethods : Language → List BuiltinMethod
  | kotlin => [
    ⟨"toString", [], .string⟩,
    ⟨"lowercase", [], .string⟩,
    ⟨"uppercase", [], .string⟩,
    ⟨"contains", [("other", .string)], .boolean⟩,
    ⟨"replace", [("oldChar", .char), ("newChar", .char)], .string⟩,
    ⟨"substring", [("startIndex", .integer), ("endIndex", .integer)], .string⟩]
  | java => [
    ⟨"toString", [], .string⟩,
    ⟨"toLowerCase", [], .string⟩,
    ⟨"toUpperCase", [], .string⟩,
    ⟨"length", [], .integer⟩,
    ⟨"contains", [("other", .string)], .boolean⟩,
    ⟨"replace", [("oldChar", .char), ("newChar", .char)], .string⟩,
    ⟨"substring", [("beginIndex", .integer), ("endIndex", .integer)], .string⟩]

/-- The methods of a builtin type. Floating-point numbers have no conversion to a narrow type. -/
def methods (l : Language) : BuiltinKind → List BuiltinMethod
  | .number | .integer | .short | .long | .byte =>
    l.conversions [.byte, .double, .float, .integer, .short, .long, .string]
  | .float | .double => l.conversions [.double, .float, .integer, .long, .string]
  | .char | .boolean => l.conversions [.string]
  | .string => l.stringMethods
  | .any | .nothing | .void => []

/-- A builtin type as a final class with its methods. -/
def classOf? (l : Language) : Ty → Option ClassDecl
  | .builtin name k _ _ _ =>
    let funcs := (l.methods k).map fun m =>
      { name := m.name
        params := m.params.map fun (n, p) => ⟨n, l.builtin p, none⟩
        ret := l.builtin m.ret
        body := none
        kind := .method
        typeParams := []
        isFinal := true
        isOverride := false }
    some { ClassDecl.plain name .regular with funcs := funcs, isFinal := true }
  | _ => none

end Language

end ProgramGen

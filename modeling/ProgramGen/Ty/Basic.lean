import ProgramGen.Language

/-!
# Types

Both target languages share one model of types. A type is a plain value: a classifier carries its
declared supertypes with it, so subtyping needs no table beside the types. Two types are equal when
they are equal as values, supertypes included.
-/

namespace ProgramGen

/-- Variance of a type parameter, or of a projected type argument. -/
inductive Variance where
  | invariant
  | covariant
  | contravariant
  deriving DecidableEq, Repr, Inhabited

/-- The identity of a type that the language itself provides. -/
inductive BuiltinKind where
  | any
  | nothing
  | void
  | number
  | integer
  | short
  | long
  | byte
  | float
  | double
  | char
  | string
  | boolean
  deriving DecidableEq, Repr, Inhabited

namespace BuiltinKind

def isIntegral : BuiltinKind → Bool
  | integer | short | long | byte => true
  | _ => false

def isNumeric : BuiltinKind → Bool
  | float | double => true
  | k => k.isIntegral

end BuiltinKind

mutual

/-- A type. -/
inductive Ty where
  /-- A type of the language; `primitive` marks the unboxed form. -/
  | builtin (name : String) (kind : BuiltinKind) (lang : Language) (primitive : Bool)
      (supers : List Ty)
  /-- A class or interface without type parameters. -/
  | simple (name : String) (supers : List Ty)
  /-- A type variable. -/
  | param (p : TypeParam)
  /-- A projected type argument. -/
  | wildcard (variance : Variance) (bound : Option Ty)
  /-- A generic class that still lacks its type arguments. -/
  | constructor (c : TypeCtor)
  /-- A generic class with its type arguments. -/
  | applied (c : TypeCtor) (args : List Ty)

/-- A type parameter of a class or function; its bound may be another parameter. -/
structure TypeParam where
  name : String
  variance : Variance
  bound : Option Ty

/-- A generic class: its supertypes may mention its parameters. -/
structure TypeCtor where
  name : String
  params : List TypeParam
  supers : List Ty
  /-- Provided by the language rather than declared by a program. -/
  builtin : Bool

end

instance : Inhabited Ty := ⟨.simple "" []⟩
instance : Inhabited TypeParam := ⟨⟨"", .invariant, none⟩⟩
instance : Inhabited TypeCtor := ⟨⟨"", [], [], false⟩⟩

/-! ## Equality -/

mutual

/-- Equality of types as values. -/
def Ty.eqb : Ty → Ty → Bool
  | .builtin n k l p s, .builtin n' k' l' p' s' =>
    n == n' && k == k' && l == l' && p == p' && Ty.eqbList s s'
  | .simple n s, .simple n' s' => n == n' && Ty.eqbList s s'
  | .param p, .param q => TypeParam.eqb p q
  | .wildcard v b, .wildcard v' b' => v == v' && Ty.eqbOption b b'
  | .constructor c, .constructor c' => TypeCtor.eqb c c'
  | .applied c a, .applied c' a' => TypeCtor.eqb c c' && Ty.eqbList a a'
  | _, _ => false

def Ty.eqbOption : Option Ty → Option Ty → Bool
  | none, none => true
  | some t, some t' => Ty.eqb t t'
  | _, _ => false

def Ty.eqbList : List Ty → List Ty → Bool
  | [], [] => true
  | t :: ts, t' :: ts' => Ty.eqb t t' && Ty.eqbList ts ts'
  | _, _ => false

def TypeParam.eqb : TypeParam → TypeParam → Bool
  | ⟨n, v, b⟩, ⟨n', v', b'⟩ => n == n' && v == v' && Ty.eqbOption b b'

def TypeParam.eqbList : List TypeParam → List TypeParam → Bool
  | [], [] => true
  | p :: ps, p' :: ps' => TypeParam.eqb p p' && TypeParam.eqbList ps ps'
  | _, _ => false

def TypeCtor.eqb : TypeCtor → TypeCtor → Bool
  | ⟨n, ps, s, b⟩, ⟨n', ps', s', b'⟩ =>
    n == n' && TypeParam.eqbList ps ps' && Ty.eqbList s s' && b == b'

end

mutual

theorem Ty.eqb_iff : ∀ a b : Ty, Ty.eqb a b = true ↔ a = b
  | .builtin _ _ _ _ s, .builtin _ _ _ _ s' => by
    simp [Ty.eqb, Ty.eqbList_iff s s', and_assoc]
  | .simple _ s, .simple _ s' => by simp [Ty.eqb, Ty.eqbList_iff s s']
  | .param p, .param q => by simp [Ty.eqb, TypeParam.eqb_iff p q]
  | .wildcard _ b, .wildcard _ b' => by simp [Ty.eqb, Ty.eqbOption_iff b b']
  | .constructor c, .constructor c' => by simp [Ty.eqb, TypeCtor.eqb_iff c c']
  | .applied c a, .applied c' a' => by
    simp [Ty.eqb, TypeCtor.eqb_iff c c', Ty.eqbList_iff a a']
  | .builtin .., .simple .. | .builtin .., .param .. | .builtin .., .wildcard ..
  | .builtin .., .constructor .. | .builtin .., .applied ..
  | .simple .., .builtin .. | .simple .., .param .. | .simple .., .wildcard ..
  | .simple .., .constructor .. | .simple .., .applied ..
  | .param .., .builtin .. | .param .., .simple .. | .param .., .wildcard ..
  | .param .., .constructor .. | .param .., .applied ..
  | .wildcard .., .builtin .. | .wildcard .., .simple .. | .wildcard .., .param ..
  | .wildcard .., .constructor .. | .wildcard .., .applied ..
  | .constructor .., .builtin .. | .constructor .., .simple .. | .constructor .., .param ..
  | .constructor .., .wildcard .. | .constructor .., .applied ..
  | .applied .., .builtin .. | .applied .., .simple .. | .applied .., .param ..
  | .applied .., .wildcard .. | .applied .., .constructor .. => by simp [Ty.eqb]

theorem Ty.eqbOption_iff : ∀ a b : Option Ty, Ty.eqbOption a b = true ↔ a = b
  | none, none | none, some _ | some _, none => by simp [Ty.eqbOption]
  | some t, some t' => by simp [Ty.eqbOption, Ty.eqb_iff t t']

theorem Ty.eqbList_iff : ∀ a b : List Ty, Ty.eqbList a b = true ↔ a = b
  | [], [] | [], _ :: _ | _ :: _, [] => by simp [Ty.eqbList]
  | t :: ts, t' :: ts' => by simp [Ty.eqbList, Ty.eqb_iff t t', Ty.eqbList_iff ts ts']

theorem TypeParam.eqb_iff : ∀ a b : TypeParam, TypeParam.eqb a b = true ↔ a = b
  | ⟨_, _, b⟩, ⟨_, _, b'⟩ => by simp [TypeParam.eqb, Ty.eqbOption_iff b b', and_assoc]

theorem TypeParam.eqbList_iff : ∀ a b : List TypeParam, TypeParam.eqbList a b = true ↔ a = b
  | [], [] | [], _ :: _ | _ :: _, [] => by simp [TypeParam.eqbList]
  | p :: ps, p' :: ps' => by
    simp [TypeParam.eqbList, TypeParam.eqb_iff p p', TypeParam.eqbList_iff ps ps']

theorem TypeCtor.eqb_iff : ∀ a b : TypeCtor, TypeCtor.eqb a b = true ↔ a = b
  | ⟨_, ps, s, _⟩, ⟨_, ps', s', _⟩ => by
    simp [TypeCtor.eqb, TypeParam.eqbList_iff ps ps', Ty.eqbList_iff s s', and_assoc]

end

instance : DecidableEq Ty := fun a b => decidable_of_iff _ (Ty.eqb_iff a b)
instance : DecidableEq TypeParam := fun a b => decidable_of_iff _ (TypeParam.eqb_iff a b)
instance : DecidableEq TypeCtor := fun a b => decidable_of_iff _ (TypeCtor.eqb_iff a b)

/-! ## Parameters and generic classes -/

/-- A parameter without variance or bound. -/
def TypeParam.plain (name : String) : TypeParam := ⟨name, .invariant, none⟩

/-- The number of parameters of a function type's class, read off its name: what follows
`Function`, a numeral that may have a plus sign and leading zeros and that fits in a machine
word. -/
def functionArity? (name : String) : Option Nat :=
  match name.toList with
  | 'F' :: 'u' :: 'n' :: 'c' :: 't' :: 'i' :: 'o' :: 'n' :: rest =>
    let digits := match rest with
      | '+' :: ds => ds
      | ds => ds
    if digits.isEmpty || !digits.all Char.isDigit then none
    else
      let n := digits.foldl (fun n c => 10 * n + (c.toNat - 48)) 0
      if n < UInt64.size then some n else none
  | _ => none

namespace TypeCtor

/-- The class with type arguments, one for each parameter. -/
def apply (c : TypeCtor) (args : List Ty) : Ty := .applied c args

/-- Whether this is the class of function types of some arity. -/
def isFunction (c : TypeCtor) : Bool :=
  c.builtin && (functionArity? c.name).isSome

/-- The class applied to its own parameters. -/
def ownInstance (c : TypeCtor) : Ty := c.apply (c.params.map .param)

end TypeCtor

/-! ## Observations -/

namespace Ty

/-- The name of a type; a generic class has one name, with arguments or without. -/
def name : Ty → String
  | builtin n .. => n
  | simple n _ => n
  | param p => p.name
  | wildcard .. => "?"
  | constructor c => c.name
  | applied c _ => c.name

def builtinKind? : Ty → Option BuiltinKind
  | builtin _ k .. => some k
  | _ => none

/-- Whether the language provides the type or its class. -/
def isBuiltin : Ty → Bool
  | builtin .. => true
  | applied c _ => c.builtin
  | constructor c => c.builtin
  | _ => false

/-- The type above all others. -/
def isTop (t : Ty) : Bool := t.builtinKind? == some .any

/-- The type below all others. -/
def isBottom (t : Ty) : Bool := t.builtinKind? == some .nothing

def isVoid (t : Ty) : Bool := t.builtinKind? == some .void

/-- An unboxed type. -/
def isPrimitive : Ty → Bool
  | builtin _ _ _ p _ => p
  | _ => false

def isVariable : Ty → Bool
  | param _ => true
  | _ => false

def isWildcard : Ty → Bool
  | wildcard .. => true
  | _ => false

def isApplied : Ty → Bool
  | applied .. => true
  | _ => false

def isConstructor : Ty → Bool
  | constructor _ => true
  | _ => false

def isFunctionType : Ty → Bool
  | applied c _ => c.isFunction
  | _ => false

/-- The parameter types and the result type of a function type. -/
def functionSignature? : Ty → Option (List Ty × Ty)
  | applied c args => if c.isFunction then args.getLast?.map (args.dropLast, ·) else none
  | _ => none

/-- The arguments of a generic class. -/
def args : Ty → List Ty
  | applied _ args => args
  | _ => []

end Ty

/-! ## Bounds -/

/-- The bound of a parameter, followed through bounds that are parameters themselves. There is none
if the chain ends in a parameter without bound, or is longer than `steps`. -/
def TypeParam.boundWithin : Nat → TypeParam → Option Ty
  | 0, _ => none
  | steps + 1, p =>
    match p.bound with
    | none => none
    | some (.param q) => q.boundWithin steps
    | some t => some t

/-- The effective bound of a parameter; chains are followed for 64 steps. -/
def TypeParam.effectiveBound (p : TypeParam) : Option Ty := p.boundWithin 64

/-- The effective bound of a parameter or wildcard, where none stands for the top type. A parameter
without bound is its own best bound under a wildcard. -/
def Ty.effectiveBound : Ty → Option Ty
  | .param p => p.effectiveBound
  | .wildcard _ (some (.param p)) => p.effectiveBound <|> some (.param p)
  | .wildcard _ b => b
  | _ => none

/-! ## Variables and wildcards -/

mutual

/-- Add the type variables of a type to those found so far, each once, in order of occurrence. -/
def Ty.collectVariables : Ty → List TypeParam → List TypeParam
  | .param p, found => p.collectVariables found
  | .applied _ args, found => Ty.collectVariablesList args found
  | .wildcard _ (some b), found => b.collectVariables found
  | .wildcard _ none, found => found
  | .builtin .., found => found
  | .simple .., found => found
  | .constructor _, found => found

def Ty.collectVariablesList : List Ty → List TypeParam → List TypeParam
  | [], found => found
  | t :: ts, found => Ty.collectVariablesList ts (t.collectVariables found)

/-- A variable comes before those of its bound. -/
def TypeParam.collectVariables : TypeParam → List TypeParam → List TypeParam
  | ⟨n, v, some b⟩, found =>
    b.collectVariables (if ⟨n, v, some b⟩ ∈ found then found else found ++ [⟨n, v, some b⟩])
  | ⟨n, v, none⟩, found => if ⟨n, v, none⟩ ∈ found then found else found ++ [⟨n, v, none⟩]

end

namespace Ty

/-- The type variables of a type, those of their bounds included, in order of occurrence. -/
def typeVars (t : Ty) : List TypeParam := t.collectVariables []

def hasVariables (t : Ty) : Bool := !t.typeVars.isEmpty

mutual

/-- Whether some argument, at any depth, is a wildcard. -/
def hasWildcards : Ty → Bool
  | wildcard .. => true
  | applied _ args => hasWildcardsList args
  | _ => false

def hasWildcardsList : List Ty → Bool
  | [] => false
  | t :: ts => hasWildcards t || hasWildcardsList ts

end

mutual

/-- The type with every wildcard replaced by its bound, or by `top` if it has none. -/
def withoutWildcards : (t : Ty) → (top : Ty) → Ty
  | wildcard _ (some b), top => withoutWildcards b top
  | wildcard _ none, top => top
  | applied c args, top => applied c (withoutWildcardsList args top)
  | builtin n k l p s, _ => builtin n k l p s
  | simple n s, _ => simple n s
  | param p, _ => param p
  | constructor c, _ => constructor c

def withoutWildcardsList : List Ty → (top : Ty) → List Ty
  | [], _ => []
  | t :: ts, top => withoutWildcards t top :: withoutWildcardsList ts top

end

theorem hasWildcardsList_eq (ts : List Ty) : hasWildcardsList ts = ts.any hasWildcards := by
  induction ts with
  | nil => rfl
  | cons t ts ih => simp [hasWildcardsList, ih]

theorem withoutWildcardsList_eq (ts : List Ty) (top : Ty) :
    withoutWildcardsList ts top = ts.map (·.withoutWildcards top) := by
  induction ts with
  | nil => rfl
  | cons t ts ih => simp [withoutWildcardsList, ih]

end Ty

end ProgramGen

import ProgramGen.Ty.Basic

/-!
# Substitutions

A substitution is a finite map from type parameters to types. Its keys are compared by name, and its
entries stay in the order in which their names first came in. To apply one replaces all parameters
at once; it reaches arguments and bounds, but not the declaration of a generic class.
-/

namespace ProgramGen

/-- A finite map from type parameters to types, in order of insertion. -/
structure Subst where
  entries : List (TypeParam × Ty)
  deriving DecidableEq

namespace Subst

/-- The substitution that changes nothing. -/
def empty : Subst := ⟨[]⟩

instance : EmptyCollection Subst := ⟨empty⟩
instance : Inhabited Subst := ⟨empty⟩

def size (m : Subst) : Nat := m.entries.length

def isEmpty (m : Subst) : Bool := m.entries.isEmpty

def keys (m : Subst) : List TypeParam := m.entries.map (·.1)

/-- The type bound to a name. -/
def lookup (m : Subst) (name : String) : Option Ty :=
  (m.entries.find? (·.1.name == name)).map (·.2)

/-- The type bound to a parameter, whatever variance and bound it is given with. -/
def get? (m : Subst) (p : TypeParam) : Option Ty := m.lookup p.name

def contains (m : Subst) (p : TypeParam) : Bool := (m.get? p).isSome

/-- Replace the value at the first entry of the same name, or add an entry at the end. -/
def insertEntry (p : TypeParam) (t : Ty) : List (TypeParam × Ty) → List (TypeParam × Ty)
  | [] => [(p, t)]
  | (k, v) :: rest => if k.name = p.name then (k, t) :: rest else (k, v) :: insertEntry p t rest

/-- Bind `p` to `t`. An entry of that name keeps its place and its key. -/
def insert (m : Subst) (p : TypeParam) (t : Ty) : Subst := ⟨insertEntry p t m.entries⟩

/-- Remove the entry of a parameter's name. -/
def erase (m : Subst) (p : TypeParam) : Subst := ⟨m.entries.eraseP (·.1.name == p.name)⟩

/-- The bindings of a list, inserted from first to last. -/
def ofList (xs : List (TypeParam × Ty)) : Subst :=
  xs.foldl (fun m x => m.insert x.1 x.2) empty

/-- Add the bindings of `other` for names that have none yet. -/
def insertMissing (m other : Subst) : Subst :=
  other.entries.foldl (fun m x => if m.contains x.1 then m else ⟨m.entries ++ [x]⟩) m

/-- Parameters bound to the arguments at the same places. -/
def ofArgs (params : List TypeParam) (args : List Ty) : Subst := ofList (params.zip args)

@[simp]
theorem lookup_empty (n : String) : (∅ : Subst).lookup n = none := rfl

theorem lookup_insert (m : Subst) (p : TypeParam) (t : Ty) (n : String) :
    (m.insert p t).lookup n = if p.name = n then some t else m.lookup n := by
  obtain ⟨xs⟩ := m
  simp only [lookup, insert]
  induction xs with
  | nil => by_cases h : p.name = n <;> simp [insertEntry, h]
  | cons x xs ih =>
    obtain ⟨k, v⟩ := x
    by_cases hk : k.name = p.name
    · by_cases hn : p.name = n <;> simp [insertEntry, hk, hn]
    · by_cases hn : k.name = n
      · subst hn
        simp [insertEntry, hk, Ne.symm hk]
      · simp [insertEntry, hk, hn, ih]

end Subst

/-! ## Application -/

mutual

/-- Replace every parameter that `m` binds; the others keep their place, with their bounds
substituted. -/
def Ty.subst (m : Subst) : Ty → Ty
  | .builtin n k l p s => .builtin n k l p s
  | .simple n s => .simple n s
  | .param ⟨n, v, b⟩ =>
    match m.lookup n with
    | some t => t
    | none => .param ⟨n, v, Ty.substBound m b⟩
  | .wildcard v b => .wildcard v (Ty.substBound m b)
  | .constructor c => .constructor c
  | .applied c args => .applied c (Ty.substList m args)

def Ty.substBound (m : Subst) : Option Ty → Option Ty
  | none => none
  | some t => some (t.subst m)

def Ty.substList (m : Subst) : List Ty → List Ty
  | [] => []
  | t :: ts => t.subst m :: Ty.substList m ts

end

theorem Ty.substBound_eq (m : Subst) (b : Option Ty) : Ty.substBound m b = b.map (Ty.subst m) := by
  cases b <;> rfl

theorem Ty.substList_eq (m : Subst) (ts : List Ty) : Ty.substList m ts = ts.map (Ty.subst m) := by
  induction ts with
  | nil => rfl
  | cons t ts ih => simp [Ty.substList, ih]

/-- The substitution that a generic type makes in its class: parameters to arguments. Other types
make none. -/
def Ty.argMap : Ty → Subst
  | .applied c args => Subst.ofArgs c.params args
  | _ => ∅

end ProgramGen

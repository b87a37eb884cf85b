import ProgramGen.Proofs.Subtyping.ClassTable
import Std.Data.String.ToNat

/-!
# Tables of a program

The generic classes that a language provides form a consistent table, and so does a table with one
more class whose supertypes speak of the classes already there.
-/

namespace ProgramGen

variable {c d : TypeCtor}

namespace Language

/-! ## The catalog -/

/-- The generic classes that the language provides. -/
inductive HasClass (l : Language) : TypeCtor → Prop where
  | array : HasClass l l.arrayCtor
  | iterator : HasClass l l.iteratorCtor
  | arrayList : HasClass l l.arrayListCtor
  | function (arity : Nat) : HasClass l (l.functionCtor arity)

variable {l : Language}

/-- The classes of functions are told from the others by how their names begin. -/
theorem functionCtor_name_ne (l : Language) (arity : Nat) {n : String}
    (hn : n.toList.head? ≠ some 'F') : (l.functionCtor arity).name ≠ n := by
  rintro rfl
  simp [functionCtor] at hn

/-- **A class of the language is known by its name.** -/
theorem HasClass.eq_of_name (hc : l.HasClass c) (hd : l.HasClass d) (h : c.name = d.name) :
    c = d := by
  cases hc with
  | function m =>
    cases hd with
    | function n =>
      have : m = n := Nat.repr_injective ((String.append_right_inj "Function").mp h)
      rw [this]
    | _ => exact absurd h (l.functionCtor_name_ne m (by cases l <;> decide))
  | _ =>
    cases hd with
    | function n => exact absurd h.symm (l.functionCtor_name_ne n (by cases l <;> decide))
    | _ => first | rfl | exact absurd h (by cases l <;> decide)

theorem HasClass.supers_eq (h : l.HasClass c) : c.supers = [l.anyType] := by
  cases h <;> rfl

/-- The table of the language's own types. -/
def classTable (l : Language) : ClassTable where
  languages := (· = l)
  classes := l.HasClass
  bare := False
  eq_of_name _ _ := HasClass.eq_of_name
  supers_over c hc s hs := by
    rw [hc.supers_eq, List.mem_singleton] at hs
    exact hs ▸ Ty.over_builtin rfl .any
  supers_vary c hc s hs := by
    rw [hc.supers_eq, List.mem_singleton] at hs
    exact hs ▸ .builtin

end Language

/-! ## Declaration -/

/-- The vocabulary with one more generic class. -/
def Vocabulary.add (V : Vocabulary) (c : TypeCtor) : Vocabulary :=
  { V with classes := fun d => V.classes d ∨ d = c }

theorem Ty.Over.add {V : Vocabulary} {t : Ty} (c : TypeCtor) (ht : t.Over V) : t.Over (V.add c) :=
  ht.mono (fun _ h => h) (fun _ h => .inl h) id

/-- The table with one more class, of a name that no other class has. -/
def ClassTable.declare (T : ClassTable) (c : TypeCtor)
    (hname : ∀ d, T.classes d → d.name ≠ c.name)
    (hover : ∀ s ∈ c.supers, s.Over (T.toVocabulary.add c))
    (hvary : ∀ s ∈ c.supers, s.VariesIn c.params .covariant) : ClassTable where
  toVocabulary := T.toVocabulary.add c
  eq_of_name d e hd he h := by
    rcases hd with hd | rfl
    · rcases he with he | rfl
      · exact T.eq_of_name d e hd he h
      · exact absurd h (hname d hd)
    · rcases he with he | rfl
      · exact absurd h.symm (hname e he)
      · rfl
  supers_over d hd s hs := by
    rcases hd with hd | rfl
    · exact (T.supers_over d hd s hs).add c
    · exact hover s hs
  supers_vary d hd s hs := by
    rcases hd with hd | rfl
    · exact T.supers_vary d hd s hs
    · exact hvary s hs

end ProgramGen

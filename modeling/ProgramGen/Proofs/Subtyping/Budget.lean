import ProgramGen.Catalog.Basic

/-!
# Subtype questions end

The procedures for subtypes, assignability and supertypes, run on a budget: a question about subtypes
may ask others to a limited depth, and the list of supertypes may be completed in a limited number of
rounds. A run that would not end exhausts every budget. The weights of the types are budget enough, and
within it the runs give the answers; so every question about any two types is answered.
-/

namespace ProgramGen

variable {a b : Ty} {n : Nat}

namespace Ty

/-! ## Questions on a budget -/

/-- Whether one argument is contained in another, where `ask` answers questions about subtypes. -/
def containedBy (ask : Ty → Ty → Option Bool) : Containment → Option Bool
  | .known holds => some holds
  | .subtype x y => ask x y

/-- One comparison of two types, which leaves the questions that come of it to `ask`. -/
def compareBy (ask : Ty → Ty → Option Bool) (a b : Ty) : Option Bool :=
  if a = b ∨ a.isBottom ∨ b.isTop then some true
  else
    match a, b with
    | .wildcard _ none, _ => some false
    | .wildcard _ (some t), _ => ask t b
    | _, .wildcard _ none => some true
    | _, .wildcard _ (some t) => ask a t
    | .param ⟨_, _, none⟩, _ => some false
    | .param ⟨_, _, some t⟩, _ => ask t b
    | .applied c xs, .applied d ys => do
      let byArgs ←
        if c.name == d.name && xs.length == ys.length then
          (c.params.zip (xs.zip ys)).allM fun (p, x, y) =>
            containedBy ask (argContainment p.variance x y)
        else some false
      if byArgs then return true else (Ty.applied c xs).supertypes.anyM (ask · b)
    | _, _ => a.supertypes.anyM (ask · b)

/-- Whether `a` is a subtype of `b`, if comparisons need not be nested deeper than `n`. -/
def isSubtypeWithin : Nat → Ty → Ty → Option Bool
  | 0 => fun _ _ => none
  | n + 1 => compareBy (isSubtypeWithin n)

/-- Whether `a` is assignable to `b`, if comparisons need not be nested deeper than `n`. -/
def isAssignableWithin (n : Nat) (a b : Ty) : Option Bool := do
  if ← a.isSubtypeWithin n b then return true
  else if a.isPrimitive || b.isPrimitive then a.boxed.isSubtypeWithin n b.boxed
  else return false

/-! ## Supertypes on a budget -/

/-- Complete a list of types by supertypes, if that takes no more than `n` rounds. -/
def supertypeClosureWithin : Nat → List Ty → List Ty → Option (List Ty)
  | _, done, [] => some done
  | 0, _, _ :: _ => none
  | n + 1, done, t :: rest =>
    supertypeClosureWithin n (done ++ [t]) (rest ++ newTypes (done ++ t :: rest) t.supertypes)

/-- The type and everything above it, if that takes no more than `n` rounds. -/
def allSupertypesWithin (n : Nat) (t : Ty) : Option (List Ty) := supertypeClosureWithin n [] [t]

/-! ## The budget lasts -/

theorem allM_eq_some {α : Type} {p : α → Option Bool} {q : α → Bool} {xs : List α}
    (h : ∀ x ∈ xs, p x = some (q x)) : xs.allM p = some (xs.all q) := by
  induction xs with
  | nil => rfl
  | cons x xs ih =>
    have htail := ih fun y hy => h y (List.mem_cons_of_mem x hy)
    rw [List.allM, h x List.mem_cons_self]
    cases hx : q x with
    | true => simp [htail, hx]
    | false => simp [hx]

theorem anyM_eq_some {α : Type} {p : α → Option Bool} {q : α → Bool} {xs : List α}
    (h : ∀ x ∈ xs, p x = some (q x)) : xs.anyM p = some (xs.any q) := by
  induction xs with
  | nil => rfl
  | cons x xs ih =>
    have htail := ih fun y hy => h y (List.mem_cons_of_mem x hy)
    rw [List.anyM, h x List.mem_cons_self]
    cases hx : q x with
    | true => simp [hx]
    | false => simp [htail, hx]

/-- A comparison climbs from its left side by questions about lighter types. -/
theorem anyM_supertypes {ask : Ty → Ty → Option Bool}
    (h : ∀ x y : Ty, x.weight + y.weight < a.weight + b.weight → ask x y = some (x.isSubtype y)) :
    a.supertypes.anyM (ask · b) = some (a.supertypes.any (·.isSubtype b)) :=
  anyM_eq_some fun s hs => h s b (by have := weight_lt_of_mem_supertypes hs; omega)

/-- The answer to whether one argument is contained in another. -/
def containmentAnswer : Containment → Bool
  | .known holds => holds
  | .subtype x y => x.isSubtype y

/-- Arguments are compared by questions about lighter types, whichever way their parameter turns
them. -/
theorem containedBy_argContainment {ask : Ty → Ty → Option Bool} {c d : TypeCtor} {xs ys : List Ty}
    {x y : Ty} {v : Variance} (hx : x ∈ xs) (hy : y ∈ ys)
    (h : ∀ x y : Ty, x.weight + y.weight < (applied c xs).weight + (applied d ys).weight →
      ask x y = some (x.isSubtype y)) :
    containedBy ask (argContainment v x y) = some (containmentAnswer (argContainment v x y)) := by
  cases hc : argContainment v x y with
  | known holds => rfl
  | subtype s t =>
    have hle := argContainment_weight hc
    have hx := weight_lt_applied (c := c) hx
    have hy := weight_lt_applied (c := d) hy
    exact h s t (by omega)

theorem isSubtype_applied {c d : TypeCtor} {xs ys : List Ty} (h : applied c xs ≠ applied d ys) :
    (applied c xs).isSubtype (applied d ys) =
      ((c.name == d.name && xs.length == ys.length &&
        (c.params.zip (xs.zip ys)).all fun q =>
          containmentAnswer (argContainment q.1.variance q.2.1 q.2.2)) ||
        (applied c xs).supertypes.any (·.isSubtype (applied d ys))) := by
  rw [Bool.eq_iff_iff, isSubtype.eq_def]
  simp only [isBottom, isTop, builtinKind?, h]
  simp only [Option.none_beq_some, Bool.false_eq_true, or_false, if_false,
    Bool.or_eq_true, Bool.and_eq_true, beq_iff_eq, List.all_eq_true,
    List.mem_attach, forall_const, Subtype.forall, Prod.forall, List.any_eq_true, true_and,
    Subtype.exists, exists_prop]
  refine or_congr (and_congr Iff.rfl ?_) Iff.rfl
  refine forall_congr' fun p => forall_congr' fun x => forall_congr' fun y => forall_congr' fun _ => ?_
  cases argContainment p.variance x y <;> rfl

/-- **A comparison asks about lighter types only**, and with their answers it has its own. -/
theorem compareBy_eq {ask : Ty → Ty → Option Bool}
    (h : ∀ x y : Ty, x.weight + y.weight < a.weight + b.weight → ask x y = some (x.isSubtype y)) :
    compareBy ask a b = some (a.isSubtype b) := by
  by_cases htriv : a = b ∨ a.isBottom ∨ b.isTop
  · rw [compareBy.eq_def, isSubtype.eq_def, if_pos htriv, if_pos htriv]
  have hup := anyM_supertypes h
  by_cases happlied : a.isApplied ∧ b.isApplied
  · cases a <;> cases happlied.1
    rename_i c xs
    cases b <;> cases happlied.2
    rename_i d ys
    have hargs := allM_eq_some fun q (hq : q ∈ c.params.zip (xs.zip ys)) =>
      have hpair := List.of_mem_zip (List.of_mem_zip hq).2
      containedBy_argContainment (v := q.1.variance) hpair.1 hpair.2 h
    rw [compareBy.eq_def, if_neg htriv, isSubtype_applied fun heq => htriv (.inl heq)]
    simp only
    rw [hargs, hup]
    cases c.name == d.name && xs.length == ys.length with
    | false => rfl
    | true =>
      cases (c.params.zip (xs.zip ys)).all fun q =>
        containmentAnswer (argContainment q.1.variance q.2.1 q.2.2) <;> rfl
  have hunattached : (a.supertypes.attach.any fun s => s.1.isSubtype b) =
      a.supertypes.any (·.isSubtype b) := by
    rw [List.any_subtype (g := fun s => s.isSubtype b) fun _ _ => rfl, List.unattach_attach]
  rw [← hunattached] at hup
  rw [compareBy.eq_def, if_neg htriv, isSubtype.eq_def, if_neg htriv]
  -- A wildcard on either side is opened before anything else is looked at.
  cases a with
  | wildcard v bound =>
    cases bound with
    | none => rfl
    | some t => exact h t b (by have := weight_lt_wildcard v t; omega)
  | param p =>
    obtain ⟨x, v, bound⟩ := p
    cases b with
    | wildcard w inner =>
      cases inner with
      | none => rfl
      | some t => exact h _ t (by have := weight_lt_wildcard w t; omega)
    | _ =>
      cases bound with
      | none => rfl
      | some t => exact h t _ (by have := weight_lt_param x v t; omega)
  | _ =>
    cases b with
    | wildcard w inner =>
      cases inner with
      | none => rfl
      | some t => exact h _ t (by have := weight_lt_wildcard w t; omega)
    | applied => first | exact absurd ⟨rfl, rfl⟩ happlied | exact hup
    | _ => exact hup

/-- A question about subtypes is answered once the budget exceeds the weight of the two types. -/
theorem isSubtypeWithin_eq (h : a.weight + b.weight < n) :
    a.isSubtypeWithin n b = some (a.isSubtype b) := by
  induction n generalizing a b with
  | zero => omega
  | succ n ih => exact compareBy_eq fun x y hlt => ih (by omega)

theorem isAssignableWithin_eq (h : a.weight + b.weight < n)
    (hboxed : a.boxed.weight + b.boxed.weight < n) :
    a.isAssignableWithin n b = some (a.isAssignable b) := by
  rw [isAssignableWithin, isSubtypeWithin_eq h, isSubtypeWithin_eq hboxed, isAssignable]
  cases a.isSubtype b with
  | true => rfl
  | false => cases a.isPrimitive || b.isPrimitive <;> rfl

/-- Each round takes a type off the list and puts on lighter ones. -/
theorem supertypeClosureWithin_eq {done pending : List Ty}
    (h : totalWeight (pending.map weight) ≤ n) :
    supertypeClosureWithin n done pending = some (supertypeClosure done pending) := by
  induction n generalizing done pending with
  | zero =>
    cases pending with
    | nil => simp [supertypeClosureWithin, supertypeClosure]
    | cons t rest =>
      have := t.totalWeight_supertypes_lt
      simp only [List.map_cons, totalWeight] at h
      omega
  | succ n ih =>
    cases pending with
    | nil => simp [supertypeClosureWithin, supertypeClosure]
    | cons t rest =>
      rw [supertypeClosureWithin, supertypeClosure]
      refine ih ?_
      have hnew := totalWeight_newTypes_le (done ++ t :: rest) t.supertypes
      have hlt := t.totalWeight_supertypes_lt
      simp only [List.map_cons, totalWeight] at h
      rw [List.map_append, totalWeight_append]
      omega

/-- **Every question about two types ends**, and so does the ascent from every type. Whatever the
types are, their weights are a budget from which on the procedures answer, and always the same. -/
theorem subtyping_ends (a b : Ty) (extra : Nat) :
    a.isSubtypeWithin (a.weight + b.weight + 1 + extra) b = some (a.isSubtype b) ∧
      a.isAssignableWithin
        (max (a.weight + b.weight) (a.boxed.weight + b.boxed.weight) + 1 + extra) b =
          some (a.isAssignable b) ∧
      a.allSupertypesWithin (a.weight + extra) = some a.allSupertypes := by
  refine ⟨isSubtypeWithin_eq (by omega), isAssignableWithin_eq (by omega) (by omega), ?_⟩
  exact supertypeClosureWithin_eq (by simp [totalWeight])

/-- A class above which its argument is nested twice: two levels of questions are too few, and seven are
enough to find that no supertype is the class itself. -/
example :
    let box : TypeCtor := ⟨"Box", [⟨"T", .contravariant, none⟩], [], false⟩
    let nest : TypeCtor := ⟨"Nest", [.plain "T"], [box.apply [box.apply [.param (.plain "T")]]], false⟩
    let leaf : Ty := .simple "Leaf" []
    (nest.apply [leaf]).isSubtypeWithin 2 (box.apply [box.apply [nest.apply [leaf]]]) = none ∧
      (nest.apply [leaf]).isSubtypeWithin 7 (box.apply [box.apply [nest.apply [leaf]]]) = some false := by
  decide +kernel

end Ty

end ProgramGen

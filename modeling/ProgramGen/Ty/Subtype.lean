import ProgramGen.Ty.Supertypes

/-!
# Subtyping

Whether one type may stand where another is expected. The relation climbs declared supertypes and
bounds, and compares the arguments of one generic class by the variance of its parameters; the top
type is above everything, the bottom type below. To compare two arguments comes down to at most one
question about subtypes, on types that weigh no more; contravariance swaps the two, which leaves the
sum of the weights as it is. So every question is answered.
-/

namespace ProgramGen

/-! ## Type arguments -/

/-- What it takes that one argument is contained in another. -/
inductive Containment where
  /-- Nothing more: the answer is known. -/
  | known (holds : Bool)
  /-- That the first type is a subtype of the second. -/
  | subtype (sub sup : Ty)

/-- Containment of `sub` in a wildcard. -/
def wildcardContainment (variance : Variance) (bound : Option Ty) (sub : Ty) : Containment :=
  match bound with
  | none => .known true
  | some b =>
    match variance with
    | .covariant =>
      match sub with
      | .wildcard .covariant (some inner) => .subtype inner b
      | .wildcard .. => .known b.isTop
      | _ => .subtype sub b
    | .contravariant =>
      match sub with
      | .wildcard .contravariant (some inner) => .subtype b inner
      | .wildcard .. => .known false
      | _ => .subtype b sub
    | .invariant => .known (sub = b)

/-- Containment of `sub` in `sup` as arguments of a parameter of the given variance. -/
def argContainment (variance : Variance) (sub sup : Ty) : Containment :=
  if sub = sup then .known true
  else
    match sup with
    | .wildcard v b => wildcardContainment v b sub
    | _ =>
      if sub.isWildcard then .known false
      else
        match variance with
        | .invariant => .known false
        | .covariant => .subtype sub sup
        | .contravariant => .subtype sup sub

theorem Ty.weight_lt_wildcard (v : Variance) (b : Ty) :
    b.weight < (Ty.wildcard v (some b)).weight := by
  simp only [weight, weightIn, boundWeightIn]
  omega

theorem Ty.weight_lt_param (n : String) (v : Variance) (b : Ty) :
    b.weight < (Ty.param ⟨n, v, some b⟩).weight := by
  simp only [weight, weightIn, boundWeightIn]
  omega

theorem wildcardContainment_weight {v : Variance} {b : Option Ty} {sub x y : Ty}
    (h : wildcardContainment v b sub = .subtype x y) :
    x.weight + y.weight ≤ sub.weight + (Ty.wildcard v b).weight := by
  cases b with
  | none => simp [wildcardContainment] at h
  | some b =>
    have hb := Ty.weight_lt_wildcard v b
    simp only [wildcardContainment] at h
    split at h
    · split at h
      · rename_i inner
        have := Ty.weight_lt_wildcard .covariant inner
        simp only [Containment.subtype.injEq] at h
        obtain ⟨rfl, rfl⟩ := h
        omega
      · simp at h
      · simp only [Containment.subtype.injEq] at h
        obtain ⟨rfl, rfl⟩ := h
        omega
    · split at h
      · rename_i inner
        have := Ty.weight_lt_wildcard .contravariant inner
        simp only [Containment.subtype.injEq] at h
        obtain ⟨rfl, rfl⟩ := h
        omega
      · simp at h
      · simp only [Containment.subtype.injEq] at h
        obtain ⟨rfl, rfl⟩ := h
        omega
    · simp at h

/-- The types in question weigh no more than the arguments. -/
theorem argContainment_weight {v : Variance} {sub sup x y : Ty}
    (h : argContainment v sub sup = .subtype x y) :
    x.weight + y.weight ≤ sub.weight + sup.weight := by
  simp only [argContainment] at h
  split at h
  · simp at h
  · split at h
    · exact wildcardContainment_weight h
    · split at h
      · simp at h
      · split at h
        · simp at h
        · simp only [Containment.subtype.injEq] at h
          obtain ⟨rfl, rfl⟩ := h
          omega
        · simp only [Containment.subtype.injEq] at h
          obtain ⟨rfl, rfl⟩ := h
          omega

/-! ## The relation -/

/-- Whether `a` is a subtype of `b`. -/
def Ty.isSubtype (a b : Ty) : Bool :=
  if a = b ∨ a.isBottom ∨ b.isTop then true
  else
    match _ha : a, _hb : b with
    | .wildcard _ none, _ => false
    | .wildcard _ (some t), _ => isSubtype t b
    | _, .wildcard _ none => true
    | _, .wildcard _ (some t) => isSubtype a t
    | .param ⟨_, _, none⟩, _ => false
    | .param ⟨_, _, some t⟩, _ => isSubtype t b
    | .applied c xs, .applied d ys =>
      (c.name == d.name && xs.length == ys.length &&
        ((c.params.zip (xs.zip ys)).attach.all fun ⟨(p, x, y), _h⟩ =>
          match _hq : argContainment p.variance x y with
          | .known holds => holds
          | .subtype s t => isSubtype s t)) ||
      (Ty.applied c xs).supertypes.attach.any fun ⟨s, _⟩ => isSubtype s b
    | _, _ => a.supertypes.attach.any fun ⟨s, _⟩ => isSubtype s b
  termination_by a.weight + b.weight
  decreasing_by
    all_goals subst_vars
    · have := Ty.weight_lt_wildcard ‹_› t; omega
    · have := Ty.weight_lt_wildcard ‹_› t; omega
    · have := Ty.weight_lt_param ‹_› ‹_› t; omega
    · have h1 := argContainment_weight _hq
      have h2 := List.of_mem_zip (List.of_mem_zip _h).2
      have h3 := Ty.weight_lt_applied (c := c) h2.1
      have h4 := Ty.weight_lt_applied (c := d) h2.2
      omega
    · have := Ty.weight_lt_of_mem_supertypes ‹_›; omega
    · have := Ty.weight_lt_of_mem_supertypes ‹_›; omega

end ProgramGen

import ProgramGen.Ty.Subtype

/-!
# What a subtype question asks

The decision procedure settles a question about two types by the first of a few grounds that
applies. Without wildcards the grounds come to five, and any one of them is enough: the types are
equal, one of them is the bottom or the top, they are the same generic class with arguments related
by variance, or a supertype of the first is already below the second.
-/

namespace ProgramGen

variable {a b : Ty} {c d : TypeCtor} {xs ys : List Ty}

/-! ## Arguments -/

/-- How two arguments of a parameter must be related for the types they belong to to be. -/
def Variance.Relates : Variance → Ty → Ty → Prop
  | .invariant, x, y => x = y
  | .covariant, x, y => x.isSubtype y
  | .contravariant, x, y => y.isSubtype x

/-- Arguments of one class, each pair related as its parameter declares. -/
def ArgsRelated (params : List TypeParam) (xs ys : List Ty) : Prop :=
  ∀ q ∈ params.zip (xs.zip ys), q.1.variance.Relates q.2.1 q.2.2

theorem argsRelated_iff {params : List TypeParam} :
    ArgsRelated params xs ys ↔
      ∀ i (hp : i < params.length) (hx : i < xs.length) (hy : i < ys.length),
        params[i].variance.Relates xs[i] ys[i] := by
  constructor
  · intro h i hp hx hy
    have hi : i < (params.zip (xs.zip ys)).length := by simp; omega
    have hq := h _ (List.getElem_mem hi)
    simpa only [List.getElem_zip] using hq
  · intro h q hq
    obtain ⟨i, hi, rfl⟩ := List.mem_iff_getElem.mp hq
    simp only [List.length_zip] at hi
    simp only [List.getElem_zip]
    exact h i (by omega) (by omega) (by omega)

/-- The answer that a containment stands for. -/
def Containment.Holds : Containment → Prop
  | .known h => h
  | .subtype x y => x.isSubtype y

@[simp]
theorem Ty.isSubtype_refl (a : Ty) : a.isSubtype a := by
  rw [Ty.isSubtype.eq_def]
  simp

theorem Variance.relates_refl (v : Variance) (x : Ty) : v.Relates x x := by
  cases v <;> simp [Variance.Relates]

/-- Among types that are no wildcards, containment is what the variance says. -/
theorem argContainment_holds_iff {v : Variance} {x y : Ty} (hx : x.isWildcard = false)
    (hy : y.isWildcard = false) : (argContainment v x y).Holds ↔ v.Relates x y := by
  by_cases h : x = y
  · subst h
    simp [argContainment, Containment.Holds, Variance.relates_refl]
  · cases y with
    | wildcard _ _ => simp [Ty.isWildcard] at hy
    | _ => cases v <;> simp [argContainment, Containment.Holds, Variance.Relates, h, hx]

/-! ## The grounds -/

/-- The grounds on which a type without wildcards is below another. -/
inductive Ty.Below (a b : Ty) : Prop where
  | refl (h : a = b)
  | bottom (h : a.isBottom)
  | top (h : b.isTop)
  | args {c d : TypeCtor} {xs ys : List Ty} (ha : a = .applied c xs) (hb : b = .applied d ys)
      (hname : c.name = d.name) (hlength : xs.length = ys.length)
      (hargs : ArgsRelated c.params xs ys)
  | up {s : Ty} (hs : s ∈ a.supertypes) (h : s.isSubtype b)

/-- Two instances of one class compare by their arguments, or by what one of them inherits. -/
theorem Ty.isSubtype_applied_iff (hxs : ∀ x ∈ xs, x.isWildcard = false)
    (hys : ∀ y ∈ ys, y.isWildcard = false) :
    (applied c xs).isSubtype (applied d ys) ↔
      applied c xs = applied d ys ∨
      (c.name = d.name ∧ xs.length = ys.length ∧ ArgsRelated c.params xs ys) ∨
      ∃ s ∈ (applied c xs).supertypes, s.isSubtype (applied d ys) := by
  rw [isSubtype.eq_def]
  simp only [isBottom, isTop, builtinKind?, ArgsRelated]
  simp only [Option.none_beq_some, Bool.false_eq_true, or_false, Bool.if_true_left,
    Bool.or_eq_true, decide_eq_true_eq, Bool.and_eq_true, beq_iff_eq, List.all_eq_true,
    List.mem_attach, forall_const, Subtype.forall, Prod.forall, List.any_eq_true, true_and,
    Subtype.exists, exists_prop, and_assoc]
  refine or_congr Iff.rfl (or_congr (and_congr Iff.rfl (and_congr Iff.rfl ?_)) Iff.rfl)
  refine forall_congr' fun p => forall_congr' fun x => forall_congr' fun y =>
    forall_congr' fun h => ?_
  obtain ⟨hx, hy⟩ := List.of_mem_zip (List.of_mem_zip h).2
  rw [← argContainment_holds_iff (hxs x hx) (hys y hy)]
  cases argContainment p.variance x y <;> rfl

/-- Types that are not both instances of a class compare by what one of them inherits. -/
theorem Ty.isSubtype_iff_up (ha : a.isWildcard = false) (hb : b.isWildcard = false)
    (h : a.isApplied = false ∨ b.isApplied = false) :
    a.isSubtype b ↔ a = b ∨ a.isBottom ∨ b.isTop ∨ ∃ s ∈ a.supertypes, s.isSubtype b := by
  rw [isSubtype.eq_def]
  cases a with
  | wildcard => simp [isWildcard] at ha
  | param p =>
    obtain ⟨n, v, bound⟩ := p
    cases bound <;> cases b <;> simp_all [isWildcard, supertypes, or_assoc]
  | applied c xs =>
    cases b <;> simp_all [isWildcard, isApplied, or_assoc]
  | _ => cases b <;> simp_all [isWildcard, or_assoc]

/-- **Without wildcards, one of the five grounds is what it takes.** -/
theorem Ty.isSubtype_iff_below (ha : a.isWildcard = false) (hb : b.isWildcard = false)
    (hxs : ∀ x ∈ a.args, x.isWildcard = false) (hys : ∀ y ∈ b.args, y.isWildcard = false) :
    a.isSubtype b ↔ a.Below b := by
  -- Only two applied types are compared argument by argument; elsewhere the rule for arguments
  -- cannot apply.
  by_cases h : a.isApplied = false ∨ b.isApplied = false
  · rw [isSubtype_iff_up ha hb h]
    constructor
    · rintro (h | h | h | ⟨s, hs, h⟩)
      · exact .refl h
      · exact .bottom h
      · exact .top h
      · exact .up hs h
    · rintro (h' | h' | h' | ⟨rfl, rfl, -, -, -⟩ | ⟨hs, h'⟩)
      · exact .inl h'
      · exact .inr (.inl h')
      · exact .inr (.inr (.inl h'))
      · simp [isApplied] at h
      · exact .inr (.inr (.inr ⟨_, hs, h'⟩))
  · cases a with
    | applied c xs =>
      cases b with
      | applied d ys =>
        have happlied : (applied c xs).isSubtype (applied d ys) ↔ _ :=
          isSubtype_applied_iff hxs hys
        rw [happlied]
        constructor
        · rintro (h | ⟨hname, hlength, hargs⟩ | ⟨s, hs, h⟩)
          · exact .refl h
          · exact .args rfl rfl hname hlength hargs
          · exact .up hs h
        · rintro (h' | h' | h' | ⟨ha, hb, hname, hlength, hargs⟩ | ⟨hs, h'⟩)
          · exact .inl h'
          · simp [isBottom, builtinKind?] at h'
          · simp [isTop, builtinKind?] at h'
          · cases ha
            cases hb
            exact .inr (.inl ⟨hname, hlength, hargs⟩)
          · exact .inr (.inr ⟨_, hs, h'⟩)
      | _ => simp [isApplied] at h
    | _ => simp [isApplied] at h

end ProgramGen

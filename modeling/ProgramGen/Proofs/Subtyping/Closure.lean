import ProgramGen.Proofs.Subtyping.Budget
import ProgramGen.Proofs.Subtyping.Transitive
import Mathlib.Logic.Relation

/-!
# Subtyping is a search among the supertypes

The list of all supertypes starts with the type and has everything that the type inherits, each once.
To be below a type is to have, in that list, a type that settles the question at once: it is the type
in question, the bottom type, or an instance of the same generic class with arguments contained in its
arguments. The procedure visits the same types one after the other.
-/

namespace ProgramGen

variable {a b s t : Ty} {c d : TypeCtor} {xs ys done rest pending seen ts new : List Ty}

/-! ## The list of supertypes -/

/-- A type inherits itself and whatever is reached by taking supertypes again and again. -/
def Ty.Inherits : Ty → Ty → Prop := Relation.ReflTransGen fun a s => s ∈ a.supertypes

/-- The types to add are those of the list that were not there. -/
theorem mem_newTypes : t ∈ newTypes seen ts ↔ t ∈ ts ∧ t ∉ seen := by
  induction ts generalizing seen with
  | nil => simp [newTypes]
  | cons u us ih =>
    rw [newTypes]
    split
    · rw [ih]
      grind
    · rw [List.mem_cons, ih]
      grind

theorem nodup_newTypes (seen ts : List Ty) : (newTypes seen ts).Nodup := by
  induction ts generalizing seen with
  | nil => exact List.nodup_nil
  | cons u us ih =>
    rw [newTypes]
    split
    · exact ih seen
    · refine List.nodup_cons.mpr ⟨fun h => ?_, ih _⟩
      exact (mem_newTypes.mp h).2 (by simp)

/-- A round leaves the list as it is, with the new types at its end. -/
theorem round_eq : done ++ [t] ++ (rest ++ new) = done ++ t :: rest ++ new := by simp

/-- Completion only adds to the end of the list. -/
theorem prefix_supertypeClosure (done pending : List Ty) :
    done ++ pending <+: supertypeClosure done pending := by
  induction done, pending using supertypeClosure.induct with
  | case1 done => simp [supertypeClosure]
  | case2 done t rest ih =>
    rw [round_eq] at ih
    rw [supertypeClosure]
    exact (List.prefix_append _ _).trans ih

theorem nodup_supertypeClosure (h : (done ++ pending).Nodup) :
    (supertypeClosure done pending).Nodup := by
  induction done, pending using supertypeClosure.induct with
  | case1 done =>
    rw [supertypeClosure]
    simpa using h
  | case2 done t rest ih =>
    rw [round_eq] at ih
    rw [supertypeClosure]
    refine ih (List.nodup_append.mpr ⟨h, nodup_newTypes _ _, ?_⟩)
    rintro u hu _ hv rfl
    exact (mem_newTypes.mp hv).2 hu

/-- Whatever is in the completed list is inherited by a type of the list. -/
theorem exists_inherits_of_mem_supertypeClosure (h : s ∈ supertypeClosure done pending) :
    ∃ t ∈ done ++ pending, t.Inherits s := by
  induction done, pending using supertypeClosure.induct with
  | case1 done =>
    rw [supertypeClosure] at h
    exact ⟨s, by simpa using h, .refl⟩
  | case2 done t rest ih =>
    rw [supertypeClosure] at h
    rw [round_eq] at ih
    obtain ⟨u, hu, hus⟩ := ih h
    rcases List.mem_append.mp hu with hu | hu
    · exact ⟨u, hu, hus⟩
    · exact ⟨t, by simp, .head (mem_newTypes.mp hu).1 hus⟩

/-- If the supertypes of all that is done are in the list, the completed list is closed. -/
theorem closed_supertypeClosure (h : ∀ t ∈ done, ∀ s ∈ t.supertypes, s ∈ done ++ pending) :
    ∀ t ∈ supertypeClosure done pending, ∀ s ∈ t.supertypes, s ∈ supertypeClosure done pending := by
  induction done, pending using supertypeClosure.induct with
  | case1 done =>
    rw [supertypeClosure]
    simpa using h
  | case2 done t rest ih =>
    rw [round_eq] at ih
    rw [supertypeClosure]
    refine ih fun u hu s hs => ?_
    by_cases hold : s ∈ done ++ t :: rest
    · exact List.mem_append_left _ hold
    · -- Only the type whose turn it is can have supertypes that are not in the list yet.
      have hturn : u = t := by
        rcases List.mem_append.mp hu with hu | hu
        · exact absurd (h u hu s hs) hold
        · exact List.mem_singleton.mp hu
      subst hturn
      exact List.mem_append_right _ (mem_newTypes.mpr ⟨hs, hold⟩)

namespace Ty

theorem exists_allSupertypes_eq (a : Ty) : ∃ rest, a.allSupertypes = a :: rest := by
  obtain ⟨rest, h⟩ := prefix_supertypeClosure [] [a]
  exact ⟨rest, h.symm⟩

theorem nodup_allSupertypes (a : Ty) : a.allSupertypes.Nodup :=
  nodup_supertypeClosure (by simp)

/-- **The list of all supertypes has what the type inherits**, and nothing else. -/
theorem mem_allSupertypes : s ∈ a.allSupertypes ↔ a.Inherits s := by
  constructor
  · intro h
    obtain ⟨t, ht, hts⟩ := exists_inherits_of_mem_supertypeClosure h
    obtain rfl : t = a := by simpa using ht
    exact hts
  · intro h
    induction h with
    | refl =>
      obtain ⟨rest, h⟩ := a.exists_allSupertypes_eq
      simp [h]
    | tail _ hs ih => exact closed_supertypeClosure (by simp) _ ih _ hs

theorem self_mem_allSupertypes (a : Ty) : a ∈ a.allSupertypes := mem_allSupertypes.mpr .refl

/-- What a supertype inherits is inherited. -/
theorem allSupertypes_subset (h : t ∈ a.supertypes) : t.allSupertypes ⊆ a.allSupertypes :=
  fun _ hs => mem_allSupertypes.mpr (.head h (mem_allSupertypes.mp hs))

/-! ## What settles a question -/

/-- One argument is contained in another, as arguments of a parameter of some variance. A projection
contains what is on its side of the bound, and projections of its own kind whose bound is. Any other
argument contains what the variance allows. -/
inductive ContainedIn : Variance → Ty → Ty → Prop where
  | refl {v : Variance} {x : Ty} : ContainedIn v x x
  | any {v w : Variance} {x : Ty} : ContainedIn v x (.wildcard w none)
  | below {v : Variance} {x y : Ty} (hx : x.isWildcard = false) (h : x.isSubtype y) :
      ContainedIn v x (.wildcard .covariant (some y))
  | narrower {v : Variance} {x y : Ty} (h : x.isSubtype y) :
      ContainedIn v (.wildcard .covariant (some x)) (.wildcard .covariant (some y))
  | top {v : Variance} {x y : Ty} (hx : x.isWildcard) (h : y.isTop) :
      ContainedIn v x (.wildcard .covariant (some y))
  | above {v : Variance} {x y : Ty} (hx : x.isWildcard = false) (h : y.isSubtype x) :
      ContainedIn v x (.wildcard .contravariant (some y))
  | wider {v : Variance} {x y : Ty} (h : y.isSubtype x) :
      ContainedIn v (.wildcard .contravariant (some x)) (.wildcard .contravariant (some y))
  | same {v : Variance} {x : Ty} : ContainedIn v x (.wildcard .invariant (some x))
  | covariant {x y : Ty} (hx : x.isWildcard = false) (hy : y.isWildcard = false)
      (h : x.isSubtype y) : ContainedIn .covariant x y
  | contravariant {x y : Ty} (hx : x.isWildcard = false) (hy : y.isWildcard = false)
      (h : y.isSubtype x) : ContainedIn .contravariant x y

theorem isSubtype_of_isTop (h : b.isTop) : a.isSubtype b := by
  rw [isSubtype.eq_def, if_pos (.inr (.inr h))]

/-- A projection contains an argument that is none, as its kind says. -/
theorem wildcardContainment_of_not_isWildcard {v w : Variance} {x y : Ty} (hx : x.isWildcard = false) :
    containmentAnswer (wildcardContainment w (some y) x) ↔ ContainedIn v x (.wildcard w (some y)) := by
  have hout : wildcardContainment .covariant (some y) x = .subtype x y := by
    cases x with
    | wildcard => cases hx
    | _ => rfl
  have hin : wildcardContainment .contravariant (some y) x = .subtype y x := by
    cases x with
    | wildcard => cases hx
    | _ => rfl
  constructor
  · intro h
    cases w with
    | invariant =>
      obtain rfl : x = y := of_decide_eq_true h
      exact .same
    | covariant =>
      rw [hout] at h
      exact .below hx h
    | contravariant =>
      rw [hin] at h
      exact .above hx h
  · intro h
    cases h with
    | below _ h =>
      rw [hout]
      exact h
    | above _ h =>
      rw [hin]
      exact h
    | same => exact decide_eq_true rfl
    | refl | narrower | wider => cases hx
    | top h => rw [hx] at h; cases h
    | covariant _ hy | contravariant _ hy => cases hy

/-- A projection contains another if that is of its kind and its bound is on the right side, or if it
contains everything. -/
theorem wildcardContainment_wildcard {v w u : Variance} {inner : Option Ty} {y : Ty}
    (hne : wildcard u inner ≠ wildcard w (some y)) :
    containmentAnswer (wildcardContainment w (some y) (wildcard u inner)) ↔
      ContainedIn v (.wildcard u inner) (.wildcard w (some y)) := by
  constructor
  · intro h
    cases w with
    | invariant =>
      obtain rfl : wildcard u inner = y := of_decide_eq_true h
      exact .same
    | covariant =>
      cases u with
      | covariant =>
        cases inner with
        | none => exact .top rfl h
        | some x => exact .narrower h
      | contravariant | invariant => exact .top rfl h
    | contravariant =>
      cases u with
      | contravariant =>
        cases inner with
        | none => cases h
        | some x => exact .wider h
      | covariant | invariant => cases h
  · intro h
    cases h with
    | refl => exact absurd rfl hne
    | narrower h | wider h => exact h
    | same => exact decide_eq_true rfl
    | top _ h =>
      cases u with
      | covariant =>
        cases inner with
        | none => exact h
        | some x => exact isSubtype_of_isTop h
      | contravariant | invariant => exact h
    | below hx | above hx | covariant hx | contravariant hx => cases hx

/-- **The comparison of two arguments answers whether one is contained in the other.** -/
theorem containmentAnswer_argContainment {v : Variance} {x y : Ty} :
    containmentAnswer (argContainment v x y) ↔ ContainedIn v x y := by
  by_cases hxy : x = y
  · subst hxy
    rw [argContainment.eq_def, if_pos rfl]
    exact iff_of_true rfl .refl
  rw [argContainment.eq_def, if_neg hxy]
  cases y with
  | wildcard w bound =>
    cases bound with
    | none => exact iff_of_true rfl .any
    | some y =>
      cases hx : x.isWildcard with
      | false => exact wildcardContainment_of_not_isWildcard hx
      | true =>
        cases x with
        | wildcard u inner => exact wildcardContainment_wildcard hxy
        | _ => cases hx
  | _ =>
    constructor
    · intro h
      cases hx : x.isWildcard with
      | true => simp [hx, containmentAnswer] at h
      | false =>
        simp only [hx] at h
        cases v with
        | invariant => cases h
        | covariant => exact .covariant hx rfl h
        | contravariant => exact .contravariant hx rfl h
    · intro h
      cases h with
      | refl => exact absurd rfl hxy
      | covariant hx _ h | contravariant hx _ h =>
        simp only [hx]
        exact h

/-- What settles that a type is below `b`: it is `b`, it is the bottom type, or it is an instance of
the same class with arguments contained in those of `b`. -/
inductive Settles (b : Ty) : Ty → Prop where
  | eq : Settles b b
  | bottom {s : Ty} (h : s.isBottom) : Settles b s
  | args {c d : TypeCtor} {xs ys : List Ty} (hb : b = .applied d ys) (hname : c.name = d.name)
      (hlength : xs.length = ys.length)
      (h : ∀ q ∈ c.params.zip (xs.zip ys), ContainedIn q.1.variance q.2.1 q.2.2) :
      Settles b (.applied c xs)

theorem settles_iff_of_not_applied (h : a.isApplied = false ∨ b.isApplied = false) :
    b.Settles a ↔ a = b ∨ a.isBottom := by
  constructor
  · intro hs
    cases hs with
    | eq => exact .inl rfl
    | bottom h => exact .inr h
    | args hb =>
      subst hb
      simp [isApplied] at h
  · rintro (rfl | hbottom)
    · exact .eq
    · exact .bottom hbottom

theorem settles_applied (hne : applied c xs ≠ applied d ys) :
    (applied d ys).Settles (applied c xs) ↔ c.name = d.name ∧ xs.length = ys.length ∧
      ∀ q ∈ c.params.zip (xs.zip ys), ContainedIn q.1.variance q.2.1 q.2.2 := by
  constructor
  · intro hs
    cases hs with
    | eq => exact absurd rfl hne
    | bottom h => simp [isBottom, builtinKind?] at h
    | args hb hname hlength hargs =>
      cases hb
      exact ⟨hname, hlength, hargs⟩
  · rintro ⟨hname, hlength, hargs⟩
    exact .args rfl hname hlength hargs

/-- One comparison settles a question by the type itself, or leaves it to the supertypes. -/
theorem isSubtype_iff_settles (ha : a.isWildcard = false) (hb : b.isWildcard = false) :
    a.isSubtype b ↔ b.isTop ∨ b.Settles a ∨ ∃ s ∈ a.supertypes, s.isSubtype b := by
  by_cases happlied : a.isApplied = false ∨ b.isApplied = false
  · rw [isSubtype_iff_up ha hb happlied, settles_iff_of_not_applied happlied]
    tauto
  · obtain ⟨c, xs, rfl⟩ : ∃ c xs, a = applied c xs := by
      cases a <;> simp [isApplied] at happlied ⊢
    obtain ⟨d, ys, rfl⟩ : ∃ d ys, b = applied d ys := by
      cases b <;> simp [isApplied] at happlied ⊢
    by_cases hne : applied c xs = applied d ys
    · rw [hne]
      exact iff_of_true (isSubtype_refl _) (.inr (.inl .eq))
    · have htop : (applied d ys).isTop = false := rfl
      rw [isSubtype_applied hne, settles_applied hne]
      simp only [htop, Bool.or_eq_true, Bool.and_eq_true, beq_iff_eq, List.all_eq_true,
        List.any_eq_true, containmentAnswer_argContainment, and_assoc, Bool.false_eq_true, false_or]

/-- **What is below a type has something above it that settles the question.** -/
theorem exists_settles_of_isSubtype (ha : ∀ s ∈ a.allSupertypes, s.isWildcard = false)
    (hb : b.isWildcard = false) (h : a.isSubtype b) :
    b.isTop ∨ ∃ s ∈ a.allSupertypes, b.Settles s := by
  -- The question goes up from type to type; each is lighter than the one before.
  induction hw : a.weight using Nat.strongRecOn generalizing a with
  | _ n ih =>
    subst hw
    rcases (isSubtype_iff_settles (ha a a.self_mem_allSupertypes) hb).mp h with
      htop | hsettles | ⟨t, ht, htb⟩
    · exact .inl htop
    · exact .inr ⟨a, a.self_mem_allSupertypes, hsettles⟩
    · have hlt := weight_lt_of_mem_supertypes ht
      have hup := allSupertypes_subset ht
      refine (ih t.weight hlt (fun u hu => ha u (hup hu)) htb rfl).imp_right ?_
      rintro ⟨s, hs, hsettles⟩
      exact ⟨s, hup hs, hsettles⟩

/-- **A type is below whatever something that it inherits is below.** -/
theorem Inherits.isSubtype (h : a.Inherits s) (ha : ∀ t ∈ a.allSupertypes, t.isWildcard = false)
    (hb : b.isWildcard = false) (hs : s.isSubtype b) : a.isSubtype b := by
  induction h using Relation.ReflTransGen.head_induction_on with
  | refl => exact hs
  | @head a t ht _ ih =>
    have htb := ih fun u hu => ha u (allSupertypes_subset ht hu)
    exact (isSubtype_iff_settles (ha a a.self_mem_allSupertypes) hb).mpr (.inr (.inr ⟨t, ht, htb⟩))

/-- **Subtyping agrees with the search among all supertypes**, and these are the type and all that is
reached from it, each once. -/
theorem isSubtype_iff_mem_allSupertypes (a : Ty) :
    (∃ rest, a.allSupertypes = a :: rest) ∧ a.allSupertypes.Nodup ∧
      (∀ s, s ∈ a.allSupertypes ↔ a.Inherits s) ∧
      ∀ b : Ty, (∀ s ∈ a.allSupertypes, s.isWildcard = false) → b.isWildcard = false →
        (a.isSubtype b ↔ b.isTop ∨ ∃ s ∈ a.allSupertypes, b.Settles s) := by
  refine ⟨a.exists_allSupertypes_eq, a.nodup_allSupertypes, fun _ => mem_allSupertypes,
    fun b ha hb => ⟨exists_settles_of_isSubtype ha hb, ?_⟩⟩
  rintro (htop | ⟨s, hs, hsettles⟩)
  · exact isSubtype_of_isTop htop
  · have hsb := (isSubtype_iff_settles (ha s hs) hb).mpr (.inr (.inl hsettles))
    exact (mem_allSupertypes.mp hs).isSubtype ha hb hsb

/-- A shelf of integers is found below the arrays of some kind of number. -/
theorem isSubtype_iff_mem_allSupertypes_shelf :
    let a := shelf.apply [Language.kotlin.integerType]
    let b := Language.kotlin.arrayOf (.wildcard .covariant (some Language.kotlin.numberType))
    (∀ s ∈ a.allSupertypes, s.isWildcard = false) ∧ b.isWildcard = false ∧ a.isSubtype b ∧
      ∃ s ∈ a.allSupertypes, b.Settles s := by
  intro a b
  have ha : ∀ s ∈ a.allSupertypes, s.isWildcard = false := by decide +kernel
  have hab : a.isSubtype b := by decide +kernel
  refine ⟨ha, rfl, hab, ?_⟩
  exact (((isSubtype_iff_mem_allSupertypes a).2.2.2 b ha rfl).mp hab).resolve_left (by decide +kernel)

end Ty

end ProgramGen

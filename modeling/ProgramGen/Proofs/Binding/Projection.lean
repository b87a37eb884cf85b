import ProgramGen.Proofs.Binding.Instantiation
import ProgramGen.Proofs.Run.Logic
import ProgramGen.Synthesis.TypeChoice

/-!
# Projections made concrete

A projected type becomes the type of a value: each wildcard is replaced by its bound, the top type where
there is none, and what is too wide then for the parameter that it belongs to is replaced by the effective
bound of the parameter. That bound is taken as it is declared. It is the one that the argument has to be
within where it depends on no other parameter of the class; where it does, what the other parameters stand
for is not looked at.
-/

namespace ProgramGen

open Gen

variable {t u b top : Ty} {p q : TypeParam} {c : TypeCtor} {args : List Ty} {s : Session}

/-! ## Types without their wildcards -/

namespace Ty

theorem hasWildcards_of_isWildcard (h : t.isWildcard) : t.hasWildcards := by
  cases t <;> first | rfl | cases h

theorem hasWildcards_withoutWildcards (htop : top.hasWildcards = false) :
    (t.withoutWildcards top).hasWildcards = false := by
  induction t using Ty.spine_induction with
  | builtin => rfl
  | simple => rfl
  | param => rfl
  | constructor => rfl
  | wildcard v b ih =>
    cases b with
    | none => exact htop
    | some b => exact ih b rfl
  | nil => rfl
  | cons c x xs hx hxs => exact Bool.or_eq_false_iff.mpr ⟨hx, hxs⟩

/-- Without its wildcards a type mentions what it did, and what the top type mentions. -/
theorem Occurs.of_withoutWildcards (h : (t.withoutWildcards top).Occurs p) : t.Occurs p ∨ top.Occurs p := by
  induction t using Ty.parts_induction with
  | builtin => exact .inl h
  | simple => exact .inl h
  | param => exact .inl h
  | constructor => exact .inl h
  | wildcard v b ih =>
    cases b with
    | none => exact .inr h
    | some b => exact (ih b rfl h).imp_left .wildcard
  | applied c args ih =>
    rw [withoutWildcards, withoutWildcardsList_eq] at h
    obtain @⟨⟩ | @⟨⟩ | @⟨⟩ | ⟨ha, h⟩ := h
    obtain ⟨a, hmem, rfl⟩ := List.mem_map.mp ha
    exact (ih a hmem h).imp_left (.arg hmem)

theorem args_withoutWildcards :
    ((applied c args).withoutWildcards top).args = args.map (·.withoutWildcards top) :=
  withoutWildcardsList_eq args top

end Ty

/-! ## The bound of a parameter -/

/-- A bound that is no parameter is effective as it is. -/
theorem TypeParam.effectiveBound_eq_bound (h : ∀ b ∈ p.bound, b.isVariable = false) :
    p.effectiveBound = p.bound := by
  rw [effectiveBound, boundWithin]
  split <;> rename_i hb
  · exact hb.symm
  · cases h _ hb
  · exact hb.symm

/-- What is put in the place of an argument is the argument or the effective bound. -/
theorem withinBound_eq_or (p : TypeParam) (t : Ty) :
    withinBound p t = t ∨ p.effectiveBound = some (withinBound p t) := by
  unfold withinBound
  split
  · split
    · exact .inl rfl
    · exact .inr ‹_›
  · exact .inl rfl

theorem hasWildcards_withinBound (hbound : ∀ b ∈ p.effectiveBound, b.hasWildcards = false)
    (ht : t.hasWildcards = false) : (withinBound p t).hasWildcards = false := by
  rcases withinBound_eq_or p t with h | h
  · rw [h, ht]
  · exact hbound _ h

theorem Ty.Occurs.of_withinBound (h : (withinBound p t).Occurs q) :
    t.Occurs q ∨ ∃ b ∈ p.effectiveBound, b.Occurs q := by
  rcases withinBound_eq_or p t with heq | hbound
  · exact .inl (heq ▸ h)
  · exact .inr ⟨_, hbound, h⟩

/-- It is within the effective bound. -/
theorem isSubtype_withinBound (h : p.effectiveBound = some b) : (withinBound p t).isSubtype b := by
  simp only [withinBound, h]
  split
  · assumption
  · exact Ty.isSubtype_refl b

/-- **It is within the bound whatever the parameters stand for**, if nothing is open in the bound. -/
theorem TypeParam.admits_withinBound (h : ∀ b ∈ p.bound, b.openParams = []) (m : Subst) :
    p.Admits m (withinBound p t) := by
  intro b hb
  rw [Ty.subst_of_openParams_eq_nil (h b hb)]
  have heffective := effectiveBound_eq_bound fun b hb => Ty.isVariable_eq_false (h b hb)
  exact isSubtype_withinBound (heffective.trans hb)

/-! ## Concrete types -/

/-- **A projected type becomes the type of a value**, of the same class and without wildcards. It mentions
what was mentioned before or in the effective bound of a parameter. What stands for a projection is within
the effective bound, and it is within the bound under the new arguments if nothing is open in that. -/
theorem concretize_applied (hlength : args.length = c.params.length)
    (hbounds : ∀ p ∈ c.params, ∀ b ∈ p.effectiveBound, b.hasWildcards = false) :
    ∃ args', (concretize (.applied c args)).runIn s = (.ok (.applied c args'), s) ∧ args'.length = args.length ∧
      (Ty.applied c args').hasWildcards = false ∧
      (∀ q, (Ty.applied c args').Occurs q →
        (Ty.applied c args).Occurs q ∨ ∃ p ∈ c.params, ∃ b ∈ p.effectiveBound, b.Occurs q) ∧
      ∀ i (hp : i < c.params.length) (h : i < args.length) (h' : i < args'.length), args[i].isWildcard →
        (∀ b ∈ c.params[i].effectiveBound, args'[i].isSubtype b) ∧
        ((∀ b ∈ c.params[i].bound, b.openParams = []) →
          c.params[i].Admits (Subst.ofArgs c.params args') args'[i]) := by
  unfold concretize
  rw [runIn_get]
  simp only
  generalize htop : s.anyType = top
  have hfree : top.hasWildcards = false := htop ▸ rfl
  have hclosed : ∀ q, ¬top.Occurs q := Ty.hasVariables_eq_false.mp (htop ▸ rfl)
  cases hwild : (Ty.applied c args).hasWildcards with
  -- No argument is a projection.
  | false =>
    refine ⟨args, rfl, rfl, hwild, fun _ => .inl, fun i _ h _ hw => ?_⟩
    rw [Ty.hasWildcards, Ty.hasWildcardsList_eq] at hwild
    exact absurd (Ty.hasWildcards_of_isWildcard hw) (List.any_eq_false.mp hwild _ (List.getElem_mem h))
  | true =>
    rw [if_pos rfl, Ty.args_withoutWildcards, List.zipWith_map_right]
    generalize hargs : List.zipWith (fun p (a : Ty) => withinBound p (a.withoutWildcards top)) c.params args = args'
    have hmem : ∀ a' ∈ args', ∃ p ∈ c.params, ∃ a ∈ args, a' = withinBound p (a.withoutWildcards top) := by
      intro a' ha'
      obtain ⟨i, hi, rfl⟩ := List.mem_iff_getElem.mp (hargs ▸ ha')
      rw [List.getElem_zipWith]
      exact ⟨_, List.getElem_mem _, _, List.getElem_mem _, rfl⟩
    refine ⟨args', rfl, by simp [← hargs, hlength], ?_, fun q hq => ?_, fun i hp h h' _ => ?_⟩
    · rw [Ty.hasWildcards, Ty.hasWildcardsList_eq, List.any_eq_false]
      intro a' ha'
      obtain ⟨p, hp, a, -, rfl⟩ := hmem a' ha'
      simp [hasWildcards_withinBound (hbounds p hp) (Ty.hasWildcards_withoutWildcards hfree)]
    · obtain @⟨⟩ | @⟨⟩ | @⟨⟩ | ⟨ha', hq⟩ := hq
      obtain ⟨p, hp, a, ha, rfl⟩ := hmem _ ha'
      cases hq.of_withinBound with
      | inl hq => exact .inl (.arg ha (hq.of_withoutWildcards.resolve_right (hclosed q)))
      | inr hbound =>
        obtain ⟨b, hb, hq⟩ := hbound
        exact .inr ⟨p, hp, b, hb, hq⟩
    · subst hargs
      rw [List.getElem_zipWith]
      exact ⟨fun b hb => isSubtype_withinBound hb, fun hopen => TypeParam.admits_withinBound hopen _⟩

/-- What the other arguments are is not looked at. The second parameter of a rack is bounded by the first, so
a rack of integers and something can be one of integers and integers; it becomes one of integers and
numbers. -/
example (s : Session) (hs : s.language = .kotlin) :
    let integer := Language.kotlin.integerType
    let number := Language.kotlin.numberType
    (concretize (.applied rack [integer, .wildcard .invariant none])).runIn s =
        (.ok (.applied rack [integer, number]), s) ∧
      rack.params[1].Admits (Subst.ofArgs rack.params [integer, integer]) integer ∧
      ¬rack.params[1].Admits (Subst.ofArgs rack.params [integer, number]) number := by
  intro integer number
  refine ⟨?_, (TypeParam.admits_iff_isSubtype rfl).mpr (by decide +kernel),
    mt (TypeParam.admits_iff_isSubtype rfl).mp (by decide +kernel)⟩
  rw [concretize, runIn_get, Session.anyType, hs]
  have hargs : List.zipWith withinBound rack.params [integer, Language.kotlin.anyType] = [integer, number] := by
    decide +kernel
  exact congrArg (fun args => (Except.ok (Ty.applied rack args), s)) hargs

end ProgramGen

import Mathlib.Data.List.Forall2
import ProgramGen.Proofs.Binding.Parameters
import ProgramGen.Proofs.Random.Range
import ProgramGen.Proofs.Subtyping.Closure
import ProgramGen.Ty.Instantiate

/-!
# Instantiation at random

An argument is within its bound under the bindings that are there when it is drawn. Bindings are only
added, and bounds look back, so it is within its bound under all of them in the end. What is written in
its place is the argument or a projection of it, which contains it; so the class with its arguments as
they are is below the class with its arguments as they are written.
-/

namespace ProgramGen

/-! ## How an argument is written -/

/-- What an argument may be projected to. In strict use it is projected if one projection is sound and
the other is not. -/
inductive Projections.Allows (sound : Projections) (strict : Bool) (t : Ty) : Ty → Prop where
  | out (h : sound.covariant) : Allows sound strict t (.wildcard .covariant (some t))
  | into (h : sound.contravariant) : Allows sound strict t (.wildcard .contravariant (some t))
  | plain (h : strict → sound.covariant = sound.contravariant) : Allows sound strict t t

/-- What may be written for the argument of a parameter. Only arguments of invariant parameters are
projected, and only if there is a choice for the parameter and they are no projections themselves. -/
inductive TypeParam.Writes (choices : VarianceChoices) (strict : Bool) (p : TypeParam) (t : Ty) :
    Ty → Prop where
  | plain (h : p.variance ≠ .invariant ∨ choices.lookup p.name = none ∨ t.isWildcard) :
      Writes choices strict p t t
  | projected {sound : Projections} {w : Ty} (hvariance : p.variance = .invariant)
      (hchoice : choices.lookup p.name = some sound) (hplain : t.isWildcard = false)
      (h : sound.Allows strict t w) : Writes choices strict p t w

/-- What a parameter gets for an argument: what is given for it, or else something that is drawn. -/
inductive TypeParam.Receives (types : List Ty) (fixed m : Subst) (p : TypeParam) (t : Ty) : Prop where
  | given (h : fixed.get? p = some t)
  | drawn (hnone : fixed.get? p = none) (h : (pickArgument p types m).CanGive (some t))

/-- What a parameter may stand for: what is given for it, or else something within its bound. -/
def TypeParam.Takes (fixed m : Subst) (p : TypeParam) (t : Ty) : Prop :=
  (∀ u, fixed.get? p = some u → t = u) ∧ (fixed.get? p = none → p.Admits m t)

variable {t w : Ty} {c : TypeCtor} {p : TypeParam} {m m' fixed : Subst} {types args written : List Ty}
variable {ps : List TypeParam} {choices : VarianceChoices} {strict : Bool} {sound : Projections}
variable {before : List String}

/-- Without a choice the argument itself is written. -/
theorem TypeParam.Writes.eq_of_lookup_eq_none (h : p.Writes choices strict t w)
    (hchoice : choices.lookup p.name = none) : w = t := by
  cases h with
  | plain => rfl
  | projected _ h => simp [h] at hchoice

theorem Projections.Allows.containedIn (h : sound.Allows strict t w) (ht : t.isWildcard = false)
    (v : Variance) : Ty.ContainedIn v t w := by
  cases h with
  | out => exact .below ht (Ty.isSubtype_refl t)
  | into => exact .above ht (Ty.isSubtype_refl t)
  | plain => exact .refl

/-- What is written for an argument contains it. -/
theorem TypeParam.Writes.containedIn (h : p.Writes choices strict t w) (v : Variance) :
    Ty.ContainedIn v t w := by
  cases h with
  | plain => exact .refl
  | projected _ _ ht h => exact h.containedIn ht v

/-- A coin decides between two values. -/
theorem Rand.eq_or_eq_of_canGive_coin {α : Type} {x y r : α}
    (h : (do if ← Rand.coin then pure x else pure y).CanGive r) : r = x ∨ r = y := by
  obtain ⟨heads, -, h⟩ := h.bind
  cases heads with
  | true => exact .inl (Rand.canGive_pure.mp h).symm
  | false => exact .inr (Rand.canGive_pure.mp h).symm

/-- **A projection is one that is allowed.** -/
theorem Projections.allows_of_projectArgument (h : (projectArgument t sound strict).CanGive w) :
    sound.Allows strict t w := by
  unfold projectArgument at h
  obtain ⟨covariant, contravariant⟩ := sound
  cases covariant <;> cases contravariant
  case false.false =>
    obtain rfl : t = w := by simpa only [pure_bind, Rand.canGive_pure] using h
    exact .plain fun _ => rfl
  case true.true =>
    obtain ⟨drawn, -, h⟩ := Rand.CanGive.bind (by simpa only [bind_assoc, pure_bind] using h)
    cases Rand.canGive_pure.mp h
    cases drawn.getD .invariant with
    | covariant => exact .out rfl
    | contravariant => exact .into rfl
    | invariant => exact .plain fun _ => rfl
  case true.false =>
    cases strict with
    | true =>
      obtain rfl : _ = w := by simpa only [pure_bind, Rand.canGive_pure] using h
      exact .out rfl
    | false =>
      simp only [pure_bind] at h
      rcases Rand.eq_or_eq_of_canGive_coin h with rfl | rfl
      · exact .out rfl
      · exact .plain nofun
  case false.true =>
    cases strict with
    | true =>
      obtain rfl : _ = w := by simpa only [pure_bind, Rand.canGive_pure] using h
      exact .into rfl
    | false =>
      simp only [pure_bind] at h
      rcases Rand.eq_or_eq_of_canGive_coin h with rfl | rfl
      · exact .into rfl
      · exact .plain nofun

/-- What follows in a run goes on with something that may be written for the argument. -/
theorem TypeParam.exists_writes {α : Type} {f : Ty → Rand α} {r : α} (p : TypeParam)
    (h : (match p.variance, choices.lookup p.name with
      | .invariant, some sound =>
        if t.isWildcard then pure t >>= f else projectArgument t sound strict >>= f
      | _, _ => pure t >>= f : Rand α).CanGive r) :
    ∃ w, p.Writes choices strict t w ∧ (f w).CanGive r := by
  cases hvariance : p.variance with
  | covariant | contravariant =>
    simp only [hvariance, pure_bind] at h
    exact ⟨t, .plain (.inl (by simp [hvariance])), h⟩
  | invariant =>
    cases hchoice : choices.lookup p.name with
    | none =>
      simp only [hvariance, hchoice, pure_bind] at h
      exact ⟨t, .plain (.inr (.inl hchoice)), h⟩
    | some sound =>
      cases ht : t.isWildcard with
      | true =>
        simp only [hvariance, hchoice, ht, if_true, pure_bind] at h
        exact ⟨t, .plain (.inr (.inr ht)), h⟩
      | false =>
        simp only [hvariance, hchoice, ht, Bool.false_eq_true, if_false] at h
        obtain ⟨w, hw, h⟩ := h.bind
        exact ⟨w, .projected hvariance hchoice ht (Projections.allows_of_projectArgument hw), h⟩

/-! ## One argument -/

/-- What is drawn is a candidate, or the bound if that is no variable. -/
theorem mem_or_eq_of_pickArgument (h : (pickArgument p types m).CanGive (some t)) :
    t ∈ argumentCandidates p types m ∨
      ∃ b, p.bound = some b ∧ t = b.subst m ∧ t.isVariable = false := by
  unfold pickArgument at h
  obtain ⟨chosen, hchosen, h⟩ := h.bind
  cases chosen with
  | some u =>
    obtain rfl : u = t := Option.some.inj (Rand.canGive_pure.mp h)
    exact .inl (Rand.mem_of_canGive_choose hchosen)
  | none =>
    cases hb : p.bound with
    | none =>
      simp only [hb, Option.map_none, Rand.canGive_pure] at h
      cases h
    | some b =>
      simp only [hb, Option.map_some, Rand.canGive_pure, Option.ite_none_left_eq_some,
        Bool.or_eq_true, not_or, Bool.not_eq_true, Option.some.injEq] at h
      exact .inr ⟨b, rfl, h.2.symm, h.2 ▸ h.1.1⟩

/-- **What is drawn for a parameter is within its bound**, also where no type at hand is. -/
theorem admits_of_pickArgument (h : (pickArgument p types m).CanGive (some t)) : p.Admits m t := by
  intro b hb
  obtain hb : p.bound = some b := hb
  obtain h | ⟨b', hb', rfl, -⟩ := mem_or_eq_of_pickArgument h
  · simp only [argumentCandidates, hb, Option.map_some, Option.all_some, List.mem_filter,
      Bool.and_eq_true] at h
    exact h.2.2
  · obtain rfl : b = b' := Option.some.inj (hb.symm.trans hb')
    exact Ty.isSubtype_refl _

theorem TypeParam.Receives.takes (h : p.Receives types fixed m t) : p.Takes fixed m t := by
  cases h with
  | given h => exact ⟨fun u hu => Option.some.inj (h.symm.trans hu), by simp [h]⟩
  | drawn hnone h => exact ⟨by simp [hnone], fun _ => admits_of_pickArgument h⟩

/-- One parameter of a class gets an argument, and this is written down. -/
theorem exists_of_instantiateParams_cons
    (h : (instantiateParams types fixed choices strict (p :: ps) m args).CanGive
      (some (written, m'))) :
    ∃ t w, p.Receives types fixed m t ∧ p.Writes choices strict t w ∧
      (instantiateParams types fixed choices strict ps (m.insert p t) (args ++ [w])).CanGive
        (some (written, m')) := by
  rw [instantiateParams] at h
  cases hp : fixed.get? p with
  | some t =>
    simp only [hp, pure_bind] at h
    obtain ⟨w, hw, h⟩ := p.exists_writes h
    exact ⟨t, w, .given hp, hw, h⟩
  | none =>
    simp only [hp] at h
    obtain ⟨argument, hargument, h⟩ := h.bind
    cases argument with
    | none => cases Rand.canGive_pure.mp h
    | some t =>
      obtain ⟨w, hw, h⟩ := p.exists_writes h
      exact ⟨t, w, .drawn hp hargument, hw, h⟩

/-- One parameter of a function gets an argument. One that has it already is bound to it anew. -/
theorem exists_of_instantiateFunction_cons
    (h : (instantiateFunction types (p :: ps) m).CanGive (some m')) :
    ∃ t, p.Receives types m m t ∧ (instantiateFunction types ps (m.insert p t)).CanGive (some m') := by
  rw [instantiateFunction] at h
  cases hp : m.get? p with
  | some t =>
    rw [if_pos (by simp [Subst.contains, hp])] at h
    exact ⟨t, .given hp, by rwa [Subst.insert_eq_self hp]⟩
  | none =>
    rw [if_neg (by simp [Subst.contains, hp])] at h
    obtain ⟨argument, hargument, h⟩ := h.bind
    cases argument with
    | none => cases Rand.canGive_pure.mp h
    | some t => exact ⟨t, .drawn hp hargument, h⟩

/-! ## All arguments -/

/-- What a parameter takes it takes under a larger substitution too, if its bound looks back. -/
theorem TypeParam.Takes.mono (h : p.Takes fixed m t) (hm : m'.Extends m)
    (hback : ∀ b ∈ p.bound, ∀ q ∈ b.openParams, q.name ∈ before)
    (hbefore : ∀ n ∈ before, ∃ u, m.lookup n = some u) : p.Takes fixed m' t :=
  ⟨h.1, fun hp => (admits_of_extends hm fun b hb q hq => hbefore _ (hback b hb q hq)).mpr (h.2 hp)⟩

/-- **A run binds the parameters in order**, each to something that it may stand for. -/
theorem exists_entries_of_instantiateParams
    (h : (instantiateParams types fixed choices strict ps m args).CanGive (some (written, m')))
    (hnames : (ps.map (·.name)).Nodup) (hnew : ∀ p ∈ ps, m.get? p = none)
    (hback : BoundsLookBack before ps) (hbefore : ∀ n ∈ before, ∃ u, m.lookup n = some u) :
    ∃ added ws, m'.entries = m.entries ++ added ∧ added.map (·.1) = ps ∧ written = args ++ ws ∧
      (∀ x ∈ added, x.1.Takes fixed m' x.2) ∧
      List.Forall₂ (fun x w => x.1.Writes choices strict x.2 w) added ws := by
  induction ps generalizing m args before with
  | nil =>
    rw [instantiateParams, Rand.canGive_pure] at h
    cases h
    exact ⟨[], [], by simp⟩
  | cons p ps ih =>
    obtain ⟨t, w, ht, hw, hrest⟩ := exists_of_instantiateParams_cons h
    obtain ⟨hp, hnames⟩ := List.nodup_cons.mp hnames
    obtain ⟨hpnew, hnew⟩ := List.forall_mem_cons.mp hnew
    have hinsert : (m.insert p t).Extends m := Subst.insert_extends hpnew
    have hnew' : ∀ q ∈ ps, (m.insert p t).get? q = none := fun q hq => by
      have hne : p.name ≠ q.name := fun h => hp (List.mem_map.mpr ⟨q, hq, h.symm⟩)
      rw [Subst.get?_insert_of_ne hne, hnew q hq]
    obtain ⟨added, ws, hentries, hkeys, hwritten, htakes, hws⟩ :=
      ih hrest hnames hnew' hback.2 (hinsert.exists_lookup_cons Subst.lookup_insert_self hbefore)
    have hm' : m'.Extends m := (Subst.extends_of_entries_eq hentries).trans hinsert
    rw [Subst.entries_insert hpnew, List.append_assoc] at hentries
    exact ⟨(p, t) :: added, w :: ws, hentries, by simp [hkeys], by simpa using hwritten,
      List.forall_mem_cons.mpr ⟨ht.takes.mono hm' hback.1 hbefore, htakes⟩, .cons hw hws⟩

/-- What a parameter gets is bound already, or is bound at the end. -/
theorem TypeParam.Receives.exists_entries_insert (h : p.Receives types m m t) :
    ∃ L, (m.insert p t).entries = m.entries ++ L ∧ (L.map (·.1)).Sublist [p] := by
  cases h with
  | given h => exact ⟨[], by simp [Subst.insert_eq_self h], by simp⟩
  | drawn h => exact ⟨[(p, t)], Subst.entries_insert h, by simp⟩

/-- A run for a function binds all parameters. -/
theorem contains_of_instantiateFunction (h : (instantiateFunction types ps m).CanGive (some m')) :
    m'.Extends m ∧ ∀ p ∈ ps, m'.contains p := by
  induction ps generalizing m with
  | nil =>
    rw [instantiateFunction, Rand.canGive_pure] at h
    cases h
    exact ⟨fun _ _ h => h, nofun⟩
  | cons p ps ih =>
    obtain ⟨t, ht, hrest⟩ := exists_of_instantiateFunction_cons h
    obtain ⟨L, hL, -⟩ := ht.exists_entries_insert
    obtain ⟨hextends, hbound⟩ := ih hrest
    have hp : m'.get? p = some t := hextends _ _ Subst.lookup_insert_self
    exact ⟨hextends.trans (Subst.extends_of_entries_eq hL),
      List.forall_mem_cons.mpr ⟨by simp [Subst.contains, hp], hbound⟩⟩

/-- **A run for a function adds bindings at the end.** All parameters are bound then, and the first of
each name stands for something that it may stand for. -/
theorem exists_entries_of_instantiateFunction
    (h : (instantiateFunction types ps m).CanGive (some m'))
    (hback : BoundsLookBack before ps) (hbefore : ∀ n ∈ before, ∃ u, m.lookup n = some u) :
    (∃ added, m'.entries = m.entries ++ added ∧ (added.map (·.1)).Sublist ps) ∧
      (∀ p ∈ ps, m'.contains p) ∧
      ∀ p, ps.find? (·.name == p.name) = some p → ∃ t, m'.get? p = some t ∧ p.Takes m m' t := by
  induction ps generalizing m before with
  | nil =>
    rw [instantiateFunction, Rand.canGive_pure] at h
    cases h
    exact ⟨⟨[], by simp⟩, by simp⟩
  | cons p ps ih =>
    obtain ⟨t, ht, hrest⟩ := exists_of_instantiateFunction_cons h
    obtain ⟨L, hL, hLkeys⟩ := ht.exists_entries_insert
    have hinsert : (m.insert p t).Extends m := Subst.extends_of_entries_eq hL
    obtain ⟨⟨added, hadded, hkeys⟩, hbound, hfirst⟩ :=
      ih hrest hback.2 (hinsert.exists_lookup_cons Subst.lookup_insert_self hbefore)
    have hm' : m'.Extends (m.insert p t) := Subst.extends_of_entries_eq hadded
    have hp : m'.get? p = some t := hm' _ _ Subst.lookup_insert_self
    refine ⟨⟨L ++ added, by rw [hadded, hL, List.append_assoc], ?_⟩,
      List.forall_mem_cons.mpr ⟨by simp [Subst.contains, hp], hbound⟩, fun q hq => ?_⟩
    · rw [List.map_append]
      exact hLkeys.append hkeys
    · cases hname : p.name == q.name with
      | true =>
        obtain rfl : p = q := by simpa [List.find?_cons, hname] using hq
        exact ⟨t, hp, ht.takes.mono (hm'.trans hinsert) hback.1 hbefore⟩
      | false =>
        obtain ⟨u, hu, htakes⟩ := hfirst q (by simpa [List.find?_cons, hname] using hq)
        rw [TypeParam.Takes, Subst.get?_insert_of_ne (by simpa using hname)] at htakes
        exact ⟨u, hu, htakes⟩

/-! ## Instantiation -/

/-- **Arguments that contain those of another instance** make an instance above it. -/
theorem TypeCtor.apply_isSubtype_apply (hlength : types.length = args.length)
    (h : ∀ x ∈ types.zip args, ∀ v, Ty.ContainedIn v x.1 x.2) :
    (c.apply types).isSubtype (c.apply args) := by
  by_cases heq : Ty.applied c types = .applied c args
  · rw [apply, apply, heq]
    exact Ty.isSubtype_refl _
  · rw [apply, apply, Ty.isSubtype_applied heq]
    simp only [hlength, beq_self_eq_true, Bool.true_and, Bool.or_eq_true, List.all_eq_true,
      Ty.containmentAnswer_argContainment]
    exact .inl fun q hq => h _ (List.of_mem_zip hq).2 _

/-- **What instantiation gives is sound.** It binds the parameters of a class in order, to what is given
or within their bounds, and writes the arguments as the choices allow, so that the class with its
arguments themselves is below. For a function it adds bindings in the same way; among parameters of one
name the first counts. -/
theorem instantiation_sound (types : List Ty) (fixed : Subst) :
    (∀ (c : TypeCtor) (choices : VarianceChoices) (strict : Bool) (st : Stream) (t : Ty) (m : Subst),
      (c.params.map (·.name)).Nodup → BoundsLookBack [] c.params →
      (c.instantiate types fixed choices strict st).1 = some (t, m) →
      m.keys = c.params ∧ (∀ x ∈ m.entries, x.1.Takes fixed m x.2) ∧
        (∃ args, t = c.apply args ∧
          List.Forall₂ (fun x w => x.1.Writes choices strict x.2 w) m.entries args) ∧
        (c.apply (m.entries.map (·.2))).isSubtype t) ∧
    ∀ (ps : List TypeParam) (st : Stream) (m : Subst),
      BoundsLookBack (fixed.keys.map (·.name)) ps →
      (instantiateFunction types ps fixed st).1 = some m →
      (∃ added, m.entries = fixed.entries ++ added ∧ (added.map (·.1)).Sublist ps) ∧
        (∀ p ∈ ps, m.contains p) ∧
        ∀ p, ps.find? (·.name == p.name) = some p → ∃ t, m.get? p = some t ∧ p.Takes fixed m t := by
  refine ⟨fun c choices strict st t m hnames hback h => ?_, fun ps st m hback h => ?_⟩
  · obtain ⟨r, hr, h⟩ := Rand.CanGive.bind ⟨st, h⟩
    rw [Rand.canGive_pure] at h
    obtain ⟨⟨args, m⟩, rfl, h⟩ := Option.map_eq_some_iff.mp h
    cases h
    obtain ⟨added, ws, hentries, hkeys, rfl, htakes, hws⟩ :=
      exists_entries_of_instantiateParams hr hnames (fun _ _ => rfl) hback (by simp)
    obtain rfl : m.entries = added := hentries
    refine ⟨hkeys, htakes, ⟨args, rfl, hws⟩, ?_⟩
    obtain ⟨hlength, hzip⟩ := List.forall₂_iff_zip.mp hws
    refine TypeCtor.apply_isSubtype_apply (by simpa using hlength) fun x hx v => ?_
    rw [List.zip_map_left] at hx
    obtain ⟨y, hy, rfl⟩ := List.mem_map.mp hx
    exact (hzip hy).containedIn v
  · exact exists_entries_of_instantiateFunction ⟨st, h⟩ hback fun _ => Subst.exists_lookup_of_mem_keys

/-- A class of a kind of numbers and a narrower one. -/
def rack : TypeCtor :=
  let t : TypeParam := ⟨"T", .invariant, some Language.kotlin.numberType⟩
  ⟨"Rack", [t, ⟨"U", .invariant, some (.param t)⟩], [], false⟩

/-- A rack of numbers and integers, written as one that gives the numbers out and takes the integers in.
A function with the same parameters, the first one given. -/
theorem instantiation_sound_rack :
    let integer := Language.kotlin.integerType
    let number := Language.kotlin.numberType
    let types := [Language.kotlin.stringType, integer, number]
    let choices : VarianceChoices := [("T", ⟨true, false⟩), ("U", ⟨false, true⟩)]
    let written : Ty :=
      rack.apply [.wildcard .covariant (some number), .wildcard .contravariant (some integer)]
    let bound (t : Ty) : Subst := ⟨rack.params.zip [t, integer]⟩
    let fixed : Subst := ⟨(rack.params.take 1).zip [integer]⟩
    ((rack.params.map (·.name)).Nodup ∧ BoundsLookBack [] rack.params ∧
      (rack.instantiate types ∅ choices true (.ofSeed 1)).1 = some (written, bound number) ∧
      (bound number).keys = rack.params ∧ (∀ x ∈ (bound number).entries, x.1.Takes ∅ (bound number) x.2) ∧
      (∃ args, written = rack.apply args ∧
        List.Forall₂ (fun x w => x.1.Writes choices true x.2 w) (bound number).entries args) ∧
      (rack.apply [number, integer]).isSubtype written) ∧
    BoundsLookBack (fixed.keys.map (·.name)) rack.params ∧
      (instantiateFunction types rack.params fixed (.ofSeed 0)).1 = some (bound integer) ∧
      (∀ p ∈ rack.params, (bound integer).contains p) ∧
      ∀ p, rack.params.find? (·.name == p.name) = some p →
        ∃ t, (bound integer).get? p = some t ∧ p.Takes fixed (bound integer) t := by
  intro integer number types choices written bound fixed
  have hnames : (rack.params.map (·.name)).Nodup := by decide +kernel
  have hback : BoundsLookBack [] rack.params := by decide +kernel
  have hclass : (rack.instantiate types ∅ choices true (.ofSeed 1)).1 =
      some (written, bound number) := by decide +kernel
  have hback' : BoundsLookBack (fixed.keys.map (·.name)) rack.params := by decide +kernel
  have hfunction : (instantiateFunction types rack.params fixed (.ofSeed 0)).1 =
      some (bound integer) := by decide +kernel
  obtain ⟨-, hcontains, hfirst⟩ := (instantiation_sound types fixed).2 _ _ _ hback' hfunction
  exact ⟨⟨hnames, hback, hclass, (instantiation_sound types ∅).1 _ _ _ _ _ _ hnames hback hclass⟩,
    hback', hfunction, hcontains, hfirst⟩

end ProgramGen

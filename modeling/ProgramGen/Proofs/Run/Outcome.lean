import ProgramGen.Proofs.Random.Choice
import ProgramGen.Proofs.Run.Course

/-!
# Runs that fail in one way only

What a run leads to when it may fail only by not making two types equal. A relation between states
holds of the runs that give a value; with or without a value, a run is a course of moves that keep the
two records of each member in step. The rules compose along a computation like those for `Yields`;
where a step could fail otherwise, its rule asks why it does not.
-/

namespace ProgramGen

variable {α β : Type} {R : Session → Session → Prop} {s s' : Session}
variable {x : Gen α} {f : α → Gen β} {Q Q' : α → Session → Prop} {P : β → Session → Prop}

/-- A relation that composes along a run, and that holds of a state with itself once the state has
been reached. -/
class RunRelation (R : Session → Session → Prop) : Prop extends IsTrans Session R where
  refl_right : ∀ {s s'}, R s s' → R s' s'

instance [IsPreorder Session R] : RunRelation R where
  trans := fun _ _ _ => trans_of R
  refl_right _ := refl_of R _

/-- Running `x` from `s` is a course that gives a value that satisfies `Q`, in a state that `R` relates
to `s`, or fails because two types could not be made equal. -/
def Gen.Ensures (R : Session → Session → Prop) (x : Gen α) (s : Session)
    (Q : α → Session → Prop) : Prop :=
  s.Course (x.runIn s).2 ∧
    match x.runIn s with
    | (.ok a, s') => R s s' ∧ Q a s'
    | (.error e, _) => e.kind = .unification

namespace Gen.Ensures

/-! ## Consequence -/

theorem of_ok {a : α} (hrun : x.runIn s = (.ok a, s')) (hcourse : s.Course s') (h : R s s' ∧ Q a s') :
    x.Ensures R s Q := by
  rw [Gen.Ensures, hrun]
  exact ⟨hcourse, h⟩

theorem imp {T : Session → Session → Prop} {U : α → Session → Prop} (h : x.Ensures R s Q)
    (hQ : ∀ a s', R s s' → Q a s' → T s s' ∧ U a s') : x.Ensures T s U := by
  unfold Gen.Ensures at h ⊢
  refine ⟨h.1, ?_⟩
  split
  · rename_i a s' hrun
    rw [hrun] at h
    exact hQ a s' h.2.1 h.2.2
  · rename_i e s' hrun
    rw [hrun] at h
    exact h.2

theorem mono (h : x.Ensures R s Q) (hQ : ∀ a s', R s s' → Q a s' → Q' a s') : x.Ensures R s Q' :=
  h.imp fun a s' hR ha => ⟨hR, hQ a s' hR ha⟩

theorem weaken (h : x.Ensures R s Q) (hR : ∀ s', R s s' → R' s s') : x.Ensures R' s Q :=
  h.imp fun _ s' h ha => ⟨hR s' h, ha⟩

/-! ## Single steps -/

theorem pure {a : α} (hR : R s s) (h : Q a s) : (Pure.pure a : Gen α).Ensures R s Q :=
  ⟨.refl, hR, h⟩

/-- A failure to make types equal. -/
theorem throw {e : GenError} (he : e.kind = .unification) : (MonadExcept.throw e : Gen α).Ensures R s Q :=
  ⟨.refl, he⟩

/-- To read the state changes nothing. -/
theorem get {f : Session → Gen β} (h : (f s).Ensures R s P) : (get >>= f).Ensures R s P := h

/-- A value that is only passed on. -/
theorem pass {a : α} (h : (f a).Ensures R s P) : (Pure.pure a >>= f).Ensures R s P := by
  rwa [pure_bind]

/-- One step that changes the state by a function of it. -/
theorem modify {change : Session → Session} {Q : Unit → Session → Prop} (hcourse : s.Course (change s))
    (hR : R s (change s)) (hQ : Q () (change s)) : (modify change : Gen Unit).Ensures R s Q :=
  ⟨hcourse, hR, hQ⟩

/-- One change of the symbol table. -/
theorem modifyContext {change : Context → Context} {Q : Unit → Session → Prop}
    (hcourse : s.Course (s.withContext (change s.context))) (hR : R s (s.withContext (change s.context)))
    (hQ : Q () (s.withContext (change s.context))) : (modifyContext change).Ensures R s Q :=
  modify hcourse hR hQ

/-- A change of the symbol table that is not refused. -/
theorem updateContext {change : Context → Except GenError Context} {c : Context}
    {Q : Unit → Session → Prop} (hc : change s.context = .ok c) (hcourse : s.Course (s.withContext c))
    (hR : R s (s.withContext c)) (hQ : Q () (s.withContext c)) :
    (updateContext change).Ensures R s Q := by
  have hrun : (Gen.updateContext change).runIn s = (.ok (), s.withContext c) := by
    simp only [runIn, Gen.updateContext, hc]
    rfl
  exact of_ok hrun hcourse ⟨hR, hQ⟩

/-! ## Scopes -/

theorem inFrame {change : Frame → Frame}
    (h : x.Ensures (fun _ s' => R s { s' with frame := s.frame })
      { s with frame := change s.frame } fun a s' => Q a { s' with frame := s.frame }) :
    (inFrame change x).Ensures R s Q := by
  have hrun : (Gen.inFrame change x).runIn s =
      ((x.runIn { s with frame := change s.frame }).1,
        { (x.runIn { s with frame := change s.frame }).2 with frame := s.frame }) := rfl
  have henter : s.Course { s with frame := change s.frame } := .of_context rfl
  unfold Gen.Ensures at h ⊢
  rw [hrun]
  generalize x.runIn { s with frame := change s.frame } = r at h
  refine ⟨(henter.trans h.1).trans (.of_context rfl), ?_⟩
  rcases r with ⟨_ | a, s'⟩ <;> exact h.2

theorem whileUnfinished {name : String}
    (h : x.Ensures (fun _ s' => R s { s' with unfinished := s.unfinished })
      { s with unfinished := name :: s.unfinished }
      fun a s' => Q a { s' with unfinished := s.unfinished }) :
    (whileUnfinished name x).Ensures R s Q := by
  have hrun : (Gen.whileUnfinished name x).runIn s =
      ((x.runIn { s with unfinished := name :: s.unfinished }).1,
        { (x.runIn { s with unfinished := name :: s.unfinished }).2 with
          unfinished := s.unfinished }) := rfl
  have henter : s.Course { s with unfinished := name :: s.unfinished } := .of_context rfl
  unfold Gen.Ensures at h ⊢
  rw [hrun]
  generalize x.runIn { s with unfinished := name :: s.unfinished } = r at h
  refine ⟨(henter.trans h.1).trans (.of_context rfl), ?_⟩
  rcases r with ⟨_ | a, s'⟩ <;> exact h.2

/-- A variable that is bound for a while, where it can be bound and forgotten. -/
theorem withShadow {ns : Namespace} {v : VarDecl} (hns : ns ≠ .global) (hclass : ns.className? = none)
    (hadd : s.context.addVar ns (.var v) = .ok (s.context.push ns (.var v)))
    (h : x.Ensures (fun _ s' => R s (s'.withContext (s'.context.removeVar ns v.name)))
      (s.withContext (s.context.push ns (.var v))) fun a s' => Q a (s'.withContext (s'.context.removeVar ns v.name))) :
    (withShadow ns (.var v) x).Ensures R s Q := by
  have hrun : (Gen.withShadow ns (.var v) x).runIn s =
      ((x.runIn (s.withContext (s.context.push ns (.var v)))).1,
        (x.runIn (s.withContext (s.context.push ns (.var v)))).2.withContext
          ((x.runIn (s.withContext (s.context.push ns (.var v)))).2.context.removeVar ns v.name)) := by
    have hbind : (Gen.updateContext (·.addVar ns (.var v))).runIn s =
        (.ok (), s.withContext (s.context.push ns (.var v))) := by
      simp only [runIn, Gen.updateContext, hadd]
      rfl
    rw [Gen.withShadow, runIn_bind, hbind]
    rfl
  have hbound : s.Course (s.withContext (s.context.push ns (.var v))) :=
    .push (by simp [Decl.kind]) (fun _ => rfl) fun _ => rfl
  unfold Gen.Ensures at h ⊢
  rw [hrun]
  generalize x.runIn (s.withContext (s.context.push ns (.var v))) = r at h
  refine ⟨(hbound.trans h.1).trans (.removeVar hns hclass), ?_⟩
  rcases r with ⟨_ | a, s'⟩ <;> exact h.2

/-! ## Sequence -/

/-- Two runs in a row, each with a relation of its own. -/
theorem seq (h : x.Ensures R s Q)
    (hf : ∀ a s', R s s' → Q a s' → (f a).Ensures (fun _ s'' => R' s s'') s' P) :
    (x >>= f).Ensures R' s P := by
  unfold Gen.Ensures at h ⊢
  rw [runIn_bind]
  rcases hrun : x.runIn s with ⟨e | a, s'⟩
  · rwa [hrun] at h
  · rw [hrun] at h
    obtain ⟨hcourse, hR, hQ⟩ := h
    obtain ⟨hcourse', hrest⟩ := hf a s' hR hQ
    exact ⟨hcourse.trans hcourse', hrest⟩

theorem map {g : α → β} (h : x.Ensures R s fun a s' => P (g a) s') : (g <$> x).Ensures R s P := by
  have hmap : (g <$> x) = x >>= fun a => Pure.pure (g a) := (bind_pure_comp g x).symm
  rw [hmap]
  exact h.seq fun a s' hR ha => pure hR ha

theorem onlyIf {c : Bool} {x : Gen Bool} (hR : R s s)
    (h : c = true → x.Ensures R s fun _ _ => True) :
    (onlyIf c x).Ensures R s fun b _ => b = true → c = true := by
  unfold Gen.onlyIf
  split
  · exact (h ‹_›).mono fun _ _ _ _ _ => ‹_›
  · exact pure hR (by simp)

section Composed

variable [RunRelation R]

theorem bind (h : x.Ensures R s Q) (hf : ∀ a s', R s s' → Q a s' → (f a).Ensures R s' P) :
    (x >>= f).Ensures R s P :=
  h.seq fun a s' hR ha => (hf a s' hR ha).weaken fun _ hR' => trans_of R hR hR'

/-! ## Repetition -/

/-- The results of a computation for each element of a list, where what is known of one result stays
true during the others. -/
theorem mapM {g : α → Gen β} {xs : List α} {G : α → β → Session → Prop} (hR : R s s)
    (h : ∀ x ∈ xs, ∀ s', R s s' → (g x).Ensures R s' (G x))
    (hG : ∀ x y s₁ s₂, R s₁ s₂ → G x y s₁ → G x y s₂) :
    (xs.mapM g).Ensures R s fun ys s' => List.Forall₂ (fun x y => G x y s') xs ys := by
  induction xs generalizing s with
  | nil =>
    rw [List.mapM_nil]
    exact pure hR .nil
  | cons x xs ih =>
    rw [List.mapM_cons]
    refine (h x List.mem_cons_self s hR).bind fun y s₁ h₁ hy => ?_
    refine (ih (RunRelation.refl_right h₁) fun z hz s' hs' =>
      h z (List.mem_cons_of_mem _ hz) s' (trans_of R h₁ hs')).bind fun ys s₂ h₂ hys => ?_
    exact pure (RunRelation.refl_right h₂) (.cons (hG x y s₁ s₂ h₂ hy) hys)

theorem times {n : Nat} {G : α → Session → Prop} (hR : R s s)
    (h : ∀ s', R s s' → x.Ensures R s' G)
    (hG : ∀ a s₁ s₂, R s₁ s₂ → G a s₁ → G a s₂) :
    (times n x).Ensures R s fun as s' => ∀ a ∈ as, G a s' := by
  induction n generalizing s with
  | zero => exact pure hR (by simp)
  | succ n ih =>
    refine (h s hR).bind fun a s₁ h₁ ha => ?_
    refine (ih (RunRelation.refl_right h₁) fun s' hs' => h s' (trans_of R h₁ hs')).bind
      fun as s₂ h₂ has => ?_
    exact pure (RunRelation.refl_right h₂) (List.forall_mem_cons.mpr ⟨hG a s₁ s₂ h₂ ha, has⟩)

end Composed

/-! ## Chance -/

/-- What only draws can be used wherever draws are allowed. -/
theorem ofDraws (h : x.Ensures Session.OnlyDraws s Q) (hR : ∀ stream, R s (s.atStream stream)) :
    x.Ensures R s fun a s' => s.OnlyDraws s' ∧ Q a s' :=
  h.imp fun a s' hs' ha => by
    refine ⟨?_, hs', ha⟩
    obtain ⟨stream, rfl⟩ := hs'
    exact hR stream

theorem rand {r : Rand α} (h : ∀ a stream, r.CanGive a → Q a (s.atStream stream)) :
    (rand r).Ensures Session.OnlyDraws s Q :=
  ⟨.of_context rfl, ⟨_, rfl⟩, h _ _ ⟨_, rfl⟩⟩

/-- What can be drawn is drawn. -/
theorem draw {r : Rand α} : (Gen.rand r).Ensures Session.OnlyDraws s fun a _ => r.CanGive a :=
  rand fun _ _ h => h

theorem pick {xs : List α} : (pick xs).Ensures Session.OnlyDraws s
    fun o _ => (o = none → xs = []) ∧ ∀ a ∈ o, a ∈ xs :=
  rand fun o _ h => ⟨fun ho => Rand.eq_nil_of_canGive_choose (ho ▸ h), fun a ha =>
    Rand.mem_of_canGive_choose (by
      rw [← Option.mem_def.mp ha]
      exact h)⟩

theorem coin : coin.Ensures Session.OnlyDraws s fun _ _ => True := rand fun _ _ _ => trivial

theorem chance {p : Probabilities → Binary64} :
    (chance p).Ensures Session.OnlyDraws s fun _ _ => True :=
  get (rand fun _ _ _ => trivial)

theorem sizeBetween {lo hi : Nat} : (sizeBetween lo hi).Ensures Session.OnlyDraws s fun _ _ => True :=
  rand fun _ _ _ => trivial

end Gen.Ensures

end ProgramGen

import ProgramGen.Proofs.Random.Range
import ProgramGen.Synthesis.Session
import Mathlib.Data.List.Forall2
import Mathlib.Order.Defs.Unbundled

/-!
# Reasoning about computations

What a run leads to, from one state. A relation between states holds of every run, whether it
fails or not; a postcondition speaks of the runs that give a value. Relations that are reflexive and
transitive compose along a computation, so one rule for each way to build computations is enough,
and what a part of the generator does is stated once.
-/

namespace ProgramGen

variable {α β : Type} {R R' : Session → Session → Prop} {s s' : Session}
variable {x : Gen α} {f : α → Gen β} {Q Q' : α → Session → Prop} {P : β → Session → Prop}

/-- The state after some draws from the stream. -/
def Session.atStream (s : Session) (stream : Stream) : Session :=
  { s with source := { s.source with stream := stream } }

/-- The session with another symbol table. -/
def Session.withContext (s : Session) (c : Context) : Session := { s with context := c }

@[simp]
theorem Session.context_withContext (s : Session) (c : Context) : (s.withContext c).context = c :=
  rfl

/-- A relation that draws do not leave. -/
class AllowsDraws (R : Session → Session → Prop) : Prop where
  draw : ∀ s stream, R s (s.atStream stream)

/-- Nothing happens but draws. -/
def Session.OnlyDraws (s s' : Session) : Prop := ∃ stream, s' = s.atStream stream

instance : IsPreorder Session Session.OnlyDraws where
  refl s := ⟨s.source.stream, rfl⟩
  trans _ _ _ h h' := by
    obtain ⟨_, rfl⟩ := h
    obtain ⟨stream, rfl⟩ := h'
    exact ⟨stream, rfl⟩

instance : AllowsDraws Session.OnlyDraws where
  draw _ stream := ⟨stream, rfl⟩

/-- Running `x` from `s` leads to a state that `R` relates to `s`, and to one that satisfies `Q`
if it gives a value. -/
def Gen.Yields (R : Session → Session → Prop) (x : Gen α) (s : Session)
    (Q : α → Session → Prop) : Prop :=
  R s (x.runIn s).2 ∧ ∀ a, (x.runIn s).1 = .ok a → Q a (x.runIn s).2

/-! ## Runs -/

theorem Gen.runIn_bind (x : Gen α) (f : α → Gen β) (s : Session) :
    (x >>= f).runIn s = match x.runIn s with
      | (.ok a, s') => (f a).runIn s'
      | (.error e, s') => (.error e, s') := by
  show ExceptT.bindCont f (x s).1 (x s).2 = _
  unfold Gen.runIn
  rcases x s with ⟨_ | a, s'⟩ <;> rfl

theorem Gen.runIn_get (f : Session → Gen β) (s : Session) : (get >>= f).runIn s = (f s).runIn s := rfl

theorem Gen.runIn_updateContext (change : Context → Except GenError Context) (s : Session) :
    (updateContext change).runIn s = match change s.context with
      | .ok c => (.ok (), s.withContext c)
      | .error e => (.error e, s) := rfl

namespace Gen.Yields

/-! ## Consequence -/

theorem mono (h : x.Yields R s Q) (hQ : ∀ a s', R s s' → Q a s' → Q' a s') : x.Yields R s Q' :=
  ⟨h.1, fun a ha => hQ a _ h.1 (h.2 a ha)⟩

theorem weaken (h : x.Yields R s Q) (hR : ∀ s', R s s' → R' s s') : x.Yields R' s Q :=
  ⟨hR _ h.1, h.2⟩

theorem and (h : x.Yields R s Q) (h' : x.Yields R' s Q') :
    x.Yields (fun s s' => R s s' ∧ R' s s') s fun a s' => Q a s' ∧ Q' a s' :=
  ⟨⟨h.1, h'.1⟩, fun a ha => ⟨h.2 a ha, h'.2 a ha⟩⟩

/-- What is known of a run that is carried out. -/
theorem of_run {r : Except GenError α} (h : x.Yields R s Q) (hrun : x.runIn s = (r, s')) :
    R s s' ∧ ∀ a, r = .ok a → Q a s' := by
  rw [Gen.Yields, hrun] at h
  exact h

/-- A run that is known leads where it leads. -/
theorem of_eq {r : Except GenError α} (hrun : x.runIn s = (r, s')) (hR : R s s')
    (hQ : ∀ a, r = .ok a → Q a s') : x.Yields R s Q := by
  rw [Gen.Yields, hrun]
  exact ⟨hR, hQ⟩

/-- One step that changes the state by a function of it. -/
theorem modify {change : Session → Session} {Q : Unit → Session → Prop} (hR : R s (change s))
    (hQ : Q () (change s)) : (modify change : Gen Unit).Yields R s Q :=
  ⟨hR, fun _ _ => hQ⟩

/-- One change of the symbol table. -/
theorem modifyContext {change : Context → Context} {Q : Unit → Session → Prop}
    (hR : R s (s.withContext (change s.context))) (hQ : Q () (s.withContext (change s.context))) :
    (modifyContext change).Yields R s Q :=
  modify hR hQ

/-- A change of the symbol table that may be refused. -/
theorem updateContext {change : Context → Except GenError Context} {Q : Unit → Session → Prop}
    (hrefl : R s s)
    (h : ∀ c, change s.context = .ok c → R s (s.withContext c) ∧ Q () (s.withContext c)) :
    (updateContext change).Yields R s Q := by
  have hrun := runIn_updateContext change s
  cases hc : change s.context with
  | ok c =>
    rw [hc] at hrun
    exact of_eq hrun (h c hc).1 fun _ _ => (h c hc).2
  | error e =>
    rw [hc] at hrun
    exact of_eq hrun hrefl nofun

/-- To read the state changes nothing. -/
theorem get {f : Session → Gen β} (h : (f s).Yields R s P) : (get >>= f).Yields R s P := h

/-- A value that is only passed on. -/
theorem pass {a : α} (h : (f a).Yields R s P) : (Pure.pure a >>= f).Yields R s P := by
  rwa [pure_bind]

/-! ## Scopes -/

theorem inFrame {change : Frame → Frame} {Q' : α → Session → Prop}
    (h : x.Yields R' { s with frame := change s.frame } Q')
    (hR : ∀ s', R' { s with frame := change s.frame } s' → R s { s' with frame := s.frame })
    (hQ : ∀ a s', R' { s with frame := change s.frame } s' → Q' a s' →
      Q a { s' with frame := s.frame }) : (inFrame change x).Yields R s Q :=
  ⟨hR _ h.1, fun a ha => hQ a _ h.1 (h.2 a ha)⟩

theorem whileUnfinished {name : String} {Q' : α → Session → Prop}
    (h : x.Yields R' { s with unfinished := name :: s.unfinished } Q')
    (hR : ∀ s', R' { s with unfinished := name :: s.unfinished } s' →
      R s { s' with unfinished := s.unfinished })
    (hQ : ∀ a s', R' { s with unfinished := name :: s.unfinished } s' → Q' a s' →
      Q a { s' with unfinished := s.unfinished }) : (whileUnfinished name x).Yields R s Q :=
  ⟨hR _ h.1, fun a ha => hQ a _ h.1 (h.2 a ha)⟩

/-! ## Values and sequence -/

section Preorder

variable [IsPreorder Session R]

theorem pure {a : α} (h : Q a s) : (Pure.pure a : Gen α).Yields R s Q :=
  ⟨refl_of R s, fun b hb => by
    cases hb
    exact h⟩

theorem throw {e : GenError} : (MonadExcept.throw e : Gen α).Yields R s Q :=
  ⟨refl_of R s, fun _ ha => by cases ha⟩

theorem bind (h : x.Yields R s Q) (hf : ∀ a s', R s s' → Q a s' → (f a).Yields R s' P) :
    (x >>= f).Yields R s P := by
  obtain ⟨hR, hQ⟩ := h
  rw [Gen.Yields, runIn_bind]
  rcases hrun : x.runIn s with ⟨e | a, s'⟩
  · rw [hrun] at hR
    exact ⟨hR, fun _ ha => by cases ha⟩
  · rw [hrun] at hR hQ
    have hnext := hf a s' hR (hQ a rfl)
    exact ⟨trans_of R hR hnext.1, hnext.2⟩

theorem map {g : α → β} (h : x.Yields R s fun a s' => P (g a) s') : (g <$> x).Yields R s P := by
  have hmap : (g <$> x) = x >>= fun a => Pure.pure (g a) := (bind_pure_comp g x).symm
  rw [hmap]
  exact h.bind fun a s' _ ha => pure ha

/-! ## Repetition -/

/-- The results of a computation for each element of a list, where what is known of one result stays
true during the others. -/
theorem mapM {g : α → Gen β} {xs : List α} {G : α → β → Session → Prop}
    (h : ∀ x ∈ xs, ∀ s', R s s' → (g x).Yields R s' (G x))
    (hG : ∀ x y s₁ s₂, R s₁ s₂ → G x y s₁ → G x y s₂) :
    (xs.mapM g).Yields R s fun ys s' => List.Forall₂ (fun x y => G x y s') xs ys := by
  induction xs generalizing s with
  | nil =>
    rw [List.mapM_nil]
    exact pure .nil
  | cons x xs ih =>
    rw [List.mapM_cons]
    refine (h x List.mem_cons_self s (refl_of R s)).bind fun y s₁ h₁ hy => ?_
    refine (ih fun z hz s' hs' => h z (List.mem_cons_of_mem _ hz) s' (trans_of R h₁ hs')).bind
      fun ys s₂ h₂ hys => ?_
    exact pure (.cons (hG x y s₁ s₂ h₂ hy) hys)

theorem forM {g : α → Gen Unit} {xs : List α}
    (h : ∀ x ∈ xs, ∀ s', R s s' → (g x).Yields R s' fun _ _ => True) :
    (xs.forM g).Yields R s fun _ _ => True := by
  induction xs generalizing s with
  | nil => exact pure trivial
  | cons x xs ih =>
    refine (h x List.mem_cons_self s (refl_of R s)).bind fun _ s₁ h₁ _ => ?_
    exact ih fun z hz s' hs' => h z (List.mem_cons_of_mem _ hz) s' (trans_of R h₁ hs')

theorem times {n : Nat} {G : α → Session → Prop} (h : ∀ s', R s s' → x.Yields R s' G)
    (hG : ∀ a s₁ s₂, R s₁ s₂ → G a s₁ → G a s₂) :
    (times n x).Yields R s fun as s' => ∀ a ∈ as, G a s' := by
  induction n generalizing s with
  | zero => exact pure (by simp)
  | succ n ih =>
    refine (h s (refl_of R s)).bind fun a s₁ h₁ ha => ?_
    refine (ih fun s' hs' => h s' (trans_of R h₁ hs')).bind fun as s₂ h₂ has => ?_
    exact pure (List.forall_mem_cons.mpr ⟨hG a s₁ s₂ h₂ ha, has⟩)

theorem onlyIf {c : Bool} {x : Gen Bool} (h : x.Yields R s fun _ _ => True) :
    (onlyIf c x).Yields R s fun b _ => b = true → c = true := by
  unfold Gen.onlyIf
  split
  · exact h.mono fun _ _ _ _ _ => ‹_›
  · exact pure (by simp)

end Preorder

/-! ## Chance -/

section Draws

variable [AllowsDraws R]

theorem rand {r : Rand α} (h : ∀ a stream, r.CanGive a → Q a (s.atStream stream)) :
    (rand r).Yields R s Q :=
  ⟨AllowsDraws.draw s _, fun a ha => by
    cases ha
    exact h _ _ ⟨_, rfl⟩⟩

theorem pick {xs : List α} : (pick xs).Yields R s fun o _ => ∀ a ∈ o, a ∈ xs :=
  rand fun o _ h a ha => Rand.mem_of_canGive_choose (by
    rw [← Option.mem_def.mp ha]
    exact h)

theorem coin : coin.Yields R s fun _ _ => True := rand fun _ _ _ => trivial

theorem chance {p : Probabilities → Binary64} : (chance p).Yields R s fun _ _ => True := by
  unfold Gen.chance
  refine Yields.get ?_
  exact rand fun _ _ _ => trivial

theorem sizeBetween {lo hi : Nat} : (sizeBetween lo hi).Yields R s fun _ _ => True :=
  rand fun _ _ _ => trivial

/-- What only draws can be used wherever draws are allowed. -/
theorem of_onlyDraws (h : x.Yields Session.OnlyDraws s Q) :
    x.Yields R s fun a s' => s.OnlyDraws s' ∧ Q a s' := by
  refine ⟨?_, fun a ha => ⟨h.1, h.2 a ha⟩⟩
  obtain ⟨stream, hstream⟩ := h.1
  rw [hstream]
  exact AllowsDraws.draw s stream

end Draws

end Gen.Yields

end ProgramGen

import ProgramGen.Proofs.Run.Logic

/-!
# What every run keeps to

A relation between sessions that a computation keeps to from whatever session it starts, and
whether it fails or not. The rules follow the way computations are built and ask for nothing else,
so that a part of the generator keeps to a relation as soon as the parts that it is made of do.
-/

namespace ProgramGen

variable {α β : Type} {R Q : Session → Session → Prop} {x : Gen α} {f : α → Gen β}

/-- From every session the run leads to one that `R` relates to it. -/
def Gen.Always (R : Session → Session → Prop) (x : Gen α) : Prop := ∀ s, R s (x.runIn s).2

/-- A relation that scopes do not leave: what they save is put back. The frame of a scope is at least
as deep as the one around it. -/
class Restoring (R : Session → Session → Prop) : Prop extends IsPreorder Session R, AllowsDraws R where
  frame : ∀ s s' f, s.frame.depth ≤ f.depth → R { s with frame := f } s' →
    R s { s' with frame := s.frame }
  unfinished : ∀ s s' names, R { s with unfinished := names } s' →
    R s { s' with unfinished := s.unfinished }

/-- What keeps to `R` in a deeper scope keeps to `Q`, the stronger of the two, around it. -/
class Encloses (R Q : Session → Session → Prop) : Prop where
  outer : ∀ s s', Q s s' → R s s'
  frame : ∀ s s' f, s.frame.depth < f.depth → R { s with frame := f } s' →
    Q s { s' with frame := s.frame }

/-- Two runs in a row, the second judged from where the first one started. -/
theorem Gen.Yields.seq {s : Session} {Q : α → Session → Prop} {P : β → Session → Prop} (h : x.Yields R s Q)
    (hf : ∀ a s', R s s' → Q a s' → (f a).Yields (fun _ s'' => R s s'') s' P) : (x >>= f).Yields R s P := by
  obtain ⟨hR, hQ⟩ := h
  rw [Gen.Yields, runIn_bind]
  rcases hrun : x.runIn s with ⟨e | a, s'⟩
  · rw [hrun] at hR
    exact ⟨hR, fun _ ha => by cases ha⟩
  · rw [hrun] at hR hQ
    exact hf a s' hR (hQ a rfl)

namespace Gen.Always

theorem of_yields (h : ∀ s, x.Yields R s fun _ _ => True) : x.Always R := fun s => (h s).1

/-- Where a computation keeps to a relation, any step of another one may be it. -/
theorem yields (h : x.Always R) (s : Session) : x.Yields R s fun _ _ => True := ⟨h s, fun _ _ => trivial⟩

/-- What keeps to a relation keeps to a weaker one. -/
theorem imp (hRQ : Subrelation R Q) (h : x.Always R) : x.Always Q := fun s => hRQ (h s)

/-- Judged from an earlier session. -/
theorem after [IsTrans Session R] (h : x.Always R) {s s₁ : Session} (h₁ : R s s₁) :
    x.Yields (fun _ s' => R s s') s₁ fun _ s' => R s₁ s' :=
  ⟨trans_of R h₁ (h s₁), fun _ _ => h s₁⟩

theorem since [IsTrans Session R] (h : x.Always R) {s s₁ : Session} (h₁ : R s s₁) :
    x.Yields (fun _ s' => R s s') s₁ fun _ _ => True :=
  (h.after h₁).mono fun _ _ _ _ => trivial

/-- One change of the session. -/
theorem modify {change : Session → Session} (h : ∀ s, R s (change s)) :
    (modify change : Gen Unit).Always R := h

/-- A change of the symbol table that may be refused. -/
theorem updateContext {change : Context → Except GenError Context} (hrefl : ∀ s, R s s)
    (h : ∀ s c, change s.context = .ok c → R s (s.withContext c)) : (updateContext change).Always R :=
  of_yields fun s => .updateContext (hrefl s) fun c hc => ⟨h s c hc, trivial⟩

/-- To read the session changes nothing. -/
theorem get {f : Session → Gen β} (h : ∀ s, (f s).Always R) : (get >>= f).Always R := fun s => h s s

/-- A value that is only passed on. -/
theorem pass {a : α} (h : (f a).Always R) : (Pure.pure a >>= f).Always R := by
  rwa [pure_bind]

/-! ## Values and sequence -/

section Preorder

variable [IsPreorder Session R]

theorem pure {a : α} : (Pure.pure a : Gen α).Always R := of_yields fun _ => .pure trivial

theorem throw {e : GenError} : (MonadExcept.throw e : Gen α).Always R := of_yields fun _ => .throw

theorem bind (h : x.Always R) (hf : ∀ a, (f a).Always R) : (x >>= f).Always R :=
  of_yields fun s => (h.yields s).bind fun a s' _ _ => (hf a).yields s'

theorem map {g : α → β} (h : x.Always R) : (g <$> x).Always R :=
  of_yields fun s => .map ((h.yields s).mono fun _ _ _ _ => trivial)

theorem onlyIf {c : Bool} {x : Gen Bool} (h : x.Always R) : (onlyIf c x).Always R :=
  of_yields fun _ => (Yields.onlyIf (h.yields _)).mono fun _ _ _ _ => trivial

theorem mapM {g : α → Gen β} {xs : List α} (h : ∀ a ∈ xs, (g a).Always R) : (xs.mapM g).Always R :=
  of_yields fun _ => (Yields.mapM (G := fun _ _ _ => True) (fun a ha s' _ => (h a ha).yields s')
    fun _ _ _ _ _ _ => trivial).mono fun _ _ _ _ => trivial

theorem forM {g : α → Gen Unit} {xs : List α} (h : ∀ a ∈ xs, (g a).Always R) : (xs.forM g).Always R :=
  of_yields fun _ => .forM fun a ha s' _ => (h a ha).yields s'

theorem times {n : Nat} (h : x.Always R) : (times n x).Always R :=
  of_yields fun _ => (Yields.times (G := fun _ _ => True) (fun s' _ => h.yields s')
    fun _ _ _ _ _ => trivial).mono fun _ _ _ _ => trivial

end Preorder

/-! ## Chance -/

section Draws

variable [AllowsDraws R]

theorem rand {r : Rand α} : (rand r).Always R := of_yields fun _ => .rand fun _ _ _ => trivial

theorem pick {xs : List α} : (pick xs).Always R := rand

theorem coin : coin.Always R := rand

theorem chance {p : Probabilities → Binary64} : (chance p).Always R := of_yields fun _ => .chance

theorem sizeBetween {lo hi : Nat} : (sizeBetween lo hi).Always R := rand

end Draws

end Gen.Always

end ProgramGen

import ProgramGen.Proofs.Emit.Success
import ProgramGen.Proofs.Program.Narrowing

/-!
# Emission on pages that narrow variables

The emitter of Java keeps the narrowed variables on its page. Two computations agree under narrowings if
they do the same on every page that has just these, and leave a page that has them, also where they fail.
-/

namespace ProgramGen

namespace Emit

variable {α β : Type} {γ : Narrowings} {x y : Emit α} {f g : α → Emit β}

/-- On every page that narrows `γ` both computations do the same, and the page narrows `γ` afterwards. -/
def AgreeUnder (γ : Narrowings) (x y : Emit α) : Prop :=
  ∀ p, p.casts = γ → y.runOn p = x.runOn p ∧ (x.runOn p).2.casts = γ

namespace AgreeUnder

theorem pure {a : α} : AgreeUnder γ (Pure.pure a : Emit α) (Pure.pure a) := fun _ hp => ⟨rfl, hp⟩

theorem throw {e : GenError} : AgreeUnder γ (MonadExcept.throw e : Emit α) (MonadExcept.throw e) :=
  fun _ hp => ⟨rfl, hp⟩

theorem bind (hx : AgreeUnder γ x y) (hf : ∀ a, AgreeUnder γ (f a) (g a)) :
    AgreeUnder γ (x >>= f) (y >>= g) := fun p hp => by
  obtain ⟨hrun, hcasts⟩ := hx p hp
  rw [runOn_bind, runOn_bind, hrun]
  rcases hx : x.runOn p with ⟨_ | a, p'⟩
  · rw [hx] at hcasts
    exact ⟨rfl, hcasts⟩
  · rw [hx] at hcasts
    exact hf a p' hcasts

theorem get {f g : Page → Emit β} (h : ∀ p, p.casts = γ → AgreeUnder γ (f p) (g p)) :
    AgreeUnder γ (get >>= f) (get >>= g) := fun p hp => h p hp p hp

theorem modify {change : Page → Page} (h : ∀ p, (change p).casts = p.casts) :
    AgreeUnder γ (modify change : Emit Unit) (modify change) := fun p hp => ⟨rfl, (h p).trans hp⟩

theorem mapM {g : α → Emit β} {xs : List α} (h : ∀ a, AgreeUnder γ (g a) (g a)) :
    AgreeUnder γ (xs.mapM g) (xs.mapM g) := by
  induction xs with
  | nil =>
    rw [List.mapM_nil]
    exact pure
  | cons a xs ih =>
    rw [List.mapM_cons]
    exact (h a).bind fun _ => ih.bind fun _ => pure

theorem forM {g : α → Emit Unit} {xs : List α} (h : ∀ a, AgreeUnder γ (g a) (g a)) :
    AgreeUnder γ (xs.forM g) (xs.forM g) := by
  induction xs with
  | nil => exact pure
  | cons a xs ih => exact (h a).bind fun _ => ih

/-! ## Pages -/

theorem line {text : String} : AgreeUnder γ (line text) (line text) := modify fun _ => rfl

theorem blank : AgreeUnder γ blank blank := modify fun p => by split <;> rfl

theorem pad : AgreeUnder γ pad pad := get fun _ _ => pure

/-- A computation may be run on another page, and something be made of what comes of it, if that leaves
alone what is narrowed. -/
theorem onPage (enter : Page → Page) (leave : Page → Except GenError α × Page → Except GenError β × Page)
    (henter : ∀ p, (enter p).casts = p.casts) (hleave : ∀ p r, (leave p r).2.casts = r.2.casts)
    (h : AgreeUnder γ x y) :
    AgreeUnder γ ((fun p => leave p (x.runOn (enter p))) : Emit β)
      ((fun p => leave p (y.runOn (enter p))) : Emit β) := fun p hp => by
  obtain ⟨hrun, hcasts⟩ := h (enter p) ((henter p).trans hp)
  refine ⟨?_, (hleave p _).trans hcasts⟩
  show leave p _ = leave p _
  rw [hrun]

theorem indented (h : AgreeUnder γ x y) : AgreeUnder γ (indented x) (indented y) :=
  h.onPage (fun p => { p with indent := p.indent + 1 })
    (fun _ r => (r.1, { r.2 with indent := r.2.indent - 1 })) (fun _ => rfl) fun _ _ => rfl

theorem detached {x y : Emit Unit} (h : AgreeUnder γ x y) : AgreeUnder γ (detached x) (detached y) :=
  h.onPage (fun p => { p with out := "", indent := p.indent + 1 })
    (fun p r => (r.1.map fun _ => r.2.out, { r.2 with out := p.out, indent := r.2.indent - 1 }))
    (fun _ => rfl) fun _ _ => rfl

theorem braced {header : String} {x y : Emit Unit} (h : AgreeUnder γ x y) :
    AgreeUnder γ (braced header x) (braced header y) :=
  h.detached.bind fun _ => pad.bind fun _ => pure

theorem enclosed {first last : String} {x y : Emit Unit} (h : AgreeUnder γ x y) :
    AgreeUnder γ (enclosed first last x) (enclosed first last y) :=
  line.bind fun _ => h.indented.bind fun _ => line

theorem binary {op : String} {x x' y y' : Emit String} (h : AgreeUnder γ x y)
    (h' : AgreeUnder γ x' y') : AgreeUnder γ (binary op x x') (binary op y y') :=
  h.bind fun _ => h'.bind fun _ => pure

end AgreeUnder

end Emit

end ProgramGen

import ProgramGen.Proofs.Emit.Success

/-!
# Emission that follows another

To refuse placeholders is to fail where one is met, and to do what is done otherwise up to there. So
the computation that does not refuse them follows the one that does: whatever the second writes, the
first writes, and where nothing is refused the two do the same, also where they fail.
-/

namespace ProgramGen

namespace Emit

variable {α β : Type} {plain : Prop} {x y : Emit α} {f g : α → Emit β} {p : Page}

/-- The computation gives a value on the page. -/
def SucceedsOn (x : Emit α) (p : Page) : Prop := ∃ a, (x.runOn p).1 = .ok a

/-- The computation gives a value on no page. -/
def Fails (x : Emit α) : Prop := ∀ p, ¬ x.SucceedsOn p

/-- On every page on which `x` succeeds, `y` gives its value and leaves its page; if `plain` holds, `y`
does as `x` on every page. -/
def Follows (plain : Prop) (x y : Emit α) : Prop :=
  ∀ p, plain ∨ x.SucceedsOn p → y.runOn p = x.runOn p

/-! ## Success on a page -/

theorem succeedsOn_bind (h : (x >>= f).SucceedsOn p) :
    ∃ a p', x.runOn p = (.ok a, p') ∧ (f a).SucceedsOn p' := by
  obtain ⟨b, h⟩ := h
  rw [runOn_bind] at h
  rcases hx : x.runOn p with ⟨_ | a, p'⟩
  · rw [hx] at h
    cases h
  · rw [hx] at h
    exact ⟨a, p', rfl, b, h⟩

theorem Fails.throw {e : GenError} : (throw e : Emit α).Fails := fun _ h => by
  obtain ⟨_, h⟩ := h
  cases h

theorem Fails.bind (h : ∀ a, (f a).Fails) : (x >>= f).Fails := fun _ hbind => by
  obtain ⟨a, p', -, ha⟩ := succeedsOn_bind hbind
  exact h a p' ha

namespace Follows

theorem refl (x : Emit α) : Follows plain x x := fun _ _ => rfl

/-- What never succeeds is followed by anything, unless nothing is refused. -/
theorem of_fails (hplain : ¬ plain) (h : x.Fails) : Follows plain x y := fun p hp =>
  absurd hp (not_or.mpr ⟨hplain, h p⟩)

theorem bind (hx : Follows plain x y) (hf : ∀ a, Follows plain (f a) (g a)) :
    Follows plain (x >>= f) (y >>= g) := fun p h => by
  have hrun : y.runOn p = x.runOn p := hx p <| h.imp_right fun h => by
    obtain ⟨a, p', hx, -⟩ := succeedsOn_bind h
    exact ⟨a, by rw [hx]⟩
  rw [runOn_bind, runOn_bind, hrun]
  -- Both stop if `x` fails; if not, what comes next starts from one value and one page.
  rcases hp : x.runOn p with ⟨_ | a, p'⟩
  · rfl
  · refine hf a p' (h.imp_right fun h => ?_)
    obtain ⟨a', p'', heq, h⟩ := succeedsOn_bind h
    rw [hp] at heq
    cases heq
    exact h

theorem bind_same (hf : ∀ a, Follows plain (f a) (g a)) : Follows plain (x >>= f) (x >>= g) :=
  (refl x).bind hf

theorem bind_const (h : Follows plain x y) (f : α → Emit β) : Follows plain (x >>= f) (y >>= f) :=
  h.bind fun a => refl (f a)

theorem forM {f g : α → Emit Unit} {xs : List α} (h : ∀ a ∈ xs, Follows plain (f a) (g a)) :
    Follows plain (xs.forM f) (xs.forM g) := by
  induction xs with
  | nil => exact refl _
  | cons a xs ih =>
    obtain ⟨ha, hxs⟩ := List.forall_mem_cons.mp h
    exact ha.bind fun _ => ih hxs

/-! ## Pages -/

/-- A computation may be run on another page, and something be made of what comes of it, if nothing
but a success is made a success. -/
theorem onPage (enter : Page → Page) (leave : Page → Except GenError α × Page → Except GenError β × Page)
    (hleave : ∀ p r b, (leave p r).1 = .ok b → ∃ a, r.1 = .ok a) (h : Follows plain x y) :
    Follows plain ((fun p => leave p (x.runOn (enter p))) : Emit β)
      ((fun p => leave p (y.runOn (enter p))) : Emit β) := fun p hp => by
  have hrun : y.runOn (enter p) = x.runOn (enter p) := h _ <| hp.imp_right fun hs => by
    obtain ⟨b, hb⟩ := hs
    exact hleave p _ b hb
  show leave p _ = leave p _
  rw [hrun]

theorem indented (h : Follows plain x y) : Follows plain (indented x) (indented y) :=
  h.onPage (fun p => { p with indent := p.indent + 1 })
    (fun _ r => (r.1, { r.2 with indent := r.2.indent - 1 })) fun _ _ b hb => ⟨b, hb⟩

theorem detached {x y : Emit Unit} (h : Follows plain x y) : Follows plain (detached x) (detached y) :=
  h.onPage (fun p => { p with out := "", indent := p.indent + 1 })
    (fun p r => (r.1.map fun _ => r.2.out, { r.2 with out := p.out, indent := r.2.indent - 1 }))
    fun _ r _ hb => by
      rcases r with ⟨_ | a, p'⟩
      · cases hb
      · exact ⟨a, rfl⟩

theorem braced {header : String} {x y : Emit Unit} (h : Follows plain x y) :
    Follows plain (braced header x) (braced header y) :=
  h.detached.bind_const _

theorem enclosed {first last : String} {x y : Emit Unit} (h : Follows plain x y) :
    Follows plain (enclosed first last x) (enclosed first last y) :=
  .bind_same fun _ => h.indented.bind_const _

theorem binary {op : String} {x x' y y' : Emit String} (h : Follows plain x y)
    (h' : Follows plain x' y') : Follows plain (binary op x x') (binary op y y') :=
  h.bind fun _ => h'.bind_const _

end Follows

end Emit

end ProgramGen

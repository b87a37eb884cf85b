import ProgramGen.Proofs.Emit.Success
import ProgramGen.Proofs.Writing.Uses

/-!
# What writing leaves of a page

Whether it succeeds or fails, the emitter leaves a page at the level of indentation and with the narrowed
variables that it had, and forgets no arity that was noted on it. An expression adds nothing to the text,
since what it writes it gives back; a statement only adds to it. And where the emitter succeeds, what is
noted is what was noted before and what the uses in the tree need.
-/

namespace ProgramGen

open Java (Use)

/-- What becomes of a text. -/
inductive TextChange where
  | kept
  | extended

namespace TextChange

variable {c : TextChange} {s t u : String}

/-- The second text is what may become of the first. -/
def Leads : TextChange → String → String → Prop
  | .kept, s, t => t = s
  | .extended, s, t => ∃ added, t = s ++ added

theorem Leads.refl (c : TextChange) (s : String) : c.Leads s s := by
  cases c with
  | kept => rfl
  | extended => exact ⟨"", String.append_empty.symm⟩

theorem Leads.trans (h : c.Leads s t) (h' : c.Leads t u) : c.Leads s u := by
  cases c with
  | kept => exact Eq.trans h' h
  | extended =>
    obtain ⟨v, rfl⟩ := h
    obtain ⟨w, rfl⟩ := h'
    exact ⟨v ++ w, String.append_assoc⟩

end TextChange

/-- What becomes of a page, where its text may change as `c` says: the arities that are noted are no
fewer, and in order if they were. -/
structure Page.Leads (c : TextChange) (p p' : Page) : Prop where
  out : c.Leads p.out p'.out
  indent : p'.indent = p.indent
  casts : p'.casts = p.casts
  arities : p.arities ⊆ p'.arities
  ascending : p.arities.Pairwise (· < ·) → p'.arities.Pairwise (· < ·)

namespace Page.Leads

variable {c : TextChange} {p p' p'' : Page}

theorem refl (c : TextChange) (p : Page) : p.Leads c p :=
  ⟨.refl c _, rfl, rfl, List.Subset.refl _, id⟩

theorem trans (h : p.Leads c p') (h' : p'.Leads c p'') : p.Leads c p'' where
  out := h.out.trans h'.out
  indent := h'.indent.trans h.indent
  casts := h'.casts.trans h.casts
  arities := List.Subset.trans h.arities h'.arities
  ascending hp := h'.ascending (h.ascending hp)

/-- What keeps the text changes it in no way that is not allowed. -/
theorem of_kept (c : TextChange) (h : p.Leads .kept p') : p.Leads c p' :=
  { h with out := by rw [show p'.out = p.out from h.out]; exact .refl c _ }

end Page.Leads

namespace Emit

variable {α β : Type} {c : TextChange} {γ δ : Narrowings} {us vs : List Use} {x : Emit α} {f : α → Emit β}

/-- A use among `us` needs the interface of functions of `n` parameters. -/
def Noted (us : List Use) (n : Nat) : Prop := ∃ u ∈ us, n ∈ u.arities

@[simp]
theorem noted_nil {n : Nat} : ¬ Noted [] n := by simp [Noted]

@[simp]
theorem noted_append {n : Nat} : Noted (us ++ vs) n ↔ Noted us n ∨ Noted vs n := by
  simp only [Noted, List.mem_append, or_and_right, exists_or]

@[simp]
theorem noted_cons {u : Use} {n : Nat} : Noted (u :: us) n ↔ n ∈ u.arities ∨ Noted us n := by
  simp only [Noted, List.mem_cons, or_and_right, exists_or, exists_eq_left]

@[simp]
theorem noted_singleton {u : Use} {n : Nat} : Noted [u] n ↔ n ∈ u.arities := by
  rw [noted_cons, or_iff_left noted_nil]

/-- On every page that narrows `γ`, the computation does to the page what `c` allows, also if it fails;
and if it succeeds, it has noted what `us` needs. -/
structure Leaves (c : TextChange) (γ : Narrowings) (us : List Use) (x : Emit α) : Prop where
  page : ∀ p : Page, p.casts = γ → p.Leads c (x.runOn p).2
  noted : ∀ (p : Page) (a : α) (p' : Page), p.casts = γ → x.runOn p = (.ok a, p') →
    ∀ n, n ∈ p'.arities ↔ n ∈ p.arities ∨ Noted us n

namespace Leaves

theorem congr (h : Leaves c γ us x) (hus : ∀ n, Noted us n ↔ Noted vs n) : Leaves c γ vs x :=
  ⟨h.page, fun p a p' hp hrun n => (h.noted p a p' hp hrun n).trans (or_congr_right (hus n))⟩

/-- What keeps the text may stand where it may be extended. -/
theorem of_kept (h : Leaves .kept γ us x) : Leaves c γ us x :=
  ⟨fun p hp => (h.page p hp).of_kept c, h.noted⟩

theorem pure {a : α} : Leaves c γ [] (Pure.pure a : Emit α) where
  page p _ := .refl c p
  noted p a p' _ hrun n := by
    cases hrun
    exact (or_iff_left noted_nil).symm

theorem throw {e : GenError} : Leaves c γ us (MonadExcept.throw e : Emit α) where
  page p _ := .refl c p
  noted _ _ _ _ hrun := by cases hrun

/-- What comes second may need other things for each value of what comes first, if all that is needed
together is the same. -/
theorem bind_each (hx : Leaves c γ us x)
    (hf : ∀ a, ∃ ws, Leaves c γ ws (f a) ∧ ∀ n, Noted vs n ↔ Noted us n ∨ Noted ws n) :
    Leaves c γ vs (x >>= f) where
  page p hp := by
    have hpage := hx.page p hp
    rw [runOn_bind]
    -- If `x` fails, the page is left as `x` leaves it.
    rcases hrun : x.runOn p with ⟨_ | a, p'⟩
    · rwa [hrun] at hpage
    · obtain ⟨_, ha, -⟩ := hf a
      rw [hrun] at hpage
      exact hpage.trans (ha.page p' (hpage.casts.trans hp))
  noted p b p'' hp hbind n := by
    have hpage := hx.page p hp
    rw [runOn_bind] at hbind
    rcases hrun : x.runOn p with ⟨_ | a, p'⟩
    · rw [hrun] at hbind
      cases hbind
    · obtain ⟨ws, ha, hws⟩ := hf a
      rw [hrun] at hbind hpage
      rw [ha.noted p' b p'' (hpage.casts.trans hp) hbind, hx.noted p a p' hp hrun, hws, or_assoc]

theorem bind (hx : Leaves c γ us x) (hf : ∀ a, Leaves c γ vs (f a)) : Leaves c γ (us ++ vs) (x >>= f) :=
  hx.bind_each fun a => ⟨vs, hf a, fun _ => noted_append⟩

/-- What comes second may need less again than what comes first. -/
theorem bind_within (hx : Leaves c γ us x)
    (hf : ∀ a, ∃ vs, Leaves c γ vs (f a) ∧ ∀ n, Noted vs n → Noted us n) : Leaves c γ us (x >>= f) :=
  hx.bind_each fun a => by
    obtain ⟨vs, ha, hvs⟩ := hf a
    exact ⟨vs, ha, fun n => (or_iff_left_of_imp (hvs n)).symm⟩

/-- What keeps the text may come before anything. -/
theorem value (hx : Leaves .kept γ us x) (hf : ∀ a, Leaves c γ vs (f a)) : Leaves c γ (us ++ vs) (x >>= f) :=
  hx.of_kept.bind hf

/-- What needs nothing may come before anything. -/
theorem before (hx : Leaves c γ [] x) (hf : ∀ a, Leaves c γ us (f a)) : Leaves c γ us (x >>= f) := hx.bind hf

/-- What needs nothing may come after anything. -/
theorem done (hx : Leaves c γ us x) (hf : ∀ a, Leaves c γ [] (f a)) : Leaves c γ us (x >>= f) := by
  have h := hx.bind hf
  rwa [List.append_nil] at h

/-- To make something of a value, or to write it, needs nothing more. -/
theorem use (hx : Leaves .kept γ us x) (hf : ∀ a, Leaves c γ [] (f a)) : Leaves c γ us (x >>= f) :=
  hx.of_kept.done hf

theorem get {f : Page → Emit β} (h : ∀ p, p.casts = γ → Leaves c γ us (f p)) : Leaves c γ us (get >>= f) where
  page p hp := (h p hp).page p hp
  noted p b p' hp hrun := (h p hp).noted p b p' hp hrun

theorem modify {change : Page → Page} (hpage : ∀ p : Page, p.Leads c (change p))
    (hnoted : ∀ p n, n ∈ (change p).arities ↔ n ∈ p.arities ∨ Noted us n) :
    Leaves c γ us (modify change : Emit Unit) where
  page p _ := hpage p
  noted p a p' _ hrun := by
    cases hrun
    exact hnoted p

theorem mapM {g : α → Emit β} {uses : α → List Use} {xs : List α} (h : ∀ a, Leaves c γ (uses a) (g a)) :
    Leaves c γ (xs.flatMap uses) (xs.mapM g) := by
  induction xs with
  | nil =>
    rw [List.mapM_nil]
    exact pure
  | cons a xs ih =>
    rw [List.mapM_cons, List.flatMap_cons]
    exact (h a).bind fun _ => ih.done fun _ => pure

theorem mapM_each {g : α → Emit β} {use : α → Use} {xs : List α} (h : ∀ a, Leaves c γ [use a] (g a)) :
    Leaves c γ (xs.map use) (xs.mapM g) := by
  rw [List.map_eq_flatMap]
  exact mapM h

theorem forM {g : α → Emit Unit} {xs : List α} (h : ∀ a, Leaves c γ [] (g a)) : Leaves c γ [] (xs.forM g) := by
  induction xs with
  | nil => exact pure
  | cons a xs ih => exact (h a).before fun _ => ih

theorem forM_each {g : α → Emit Unit} {use : α → Use} {xs : List α} (h : ∀ a, Leaves c γ [use a] (g a)) :
    Leaves c γ (xs.map use) (xs.forM g) := by
  induction xs with
  | nil => exact pure
  | cons a xs ih => exact (h a).bind fun _ => ih

/-! ## Pages -/

theorem line {text : String} : Leaves .extended γ [] (line text) := by
  refine modify (fun p => ⟨⟨padding p.indent ++ text ++ "\n", ?_⟩, rfl, rfl, List.Subset.refl _, id⟩)
    fun p n => (or_iff_left noted_nil).symm
  simp only [String.append_assoc]

theorem blank : Leaves .extended γ [] blank := by
  refine modify (fun p => ?_) fun p n => ?_
  · split
    · exact .refl _ p
    · exact ⟨⟨"\n", rfl⟩, rfl, rfl, List.Subset.refl _, id⟩
  · rw [or_iff_left noted_nil]
    split <;> rfl

theorem pad : Leaves c γ [] pad := get fun _ _ => pure

/-- A computation may be run on another page and something be made of what comes of it, if it leaves of
the page what it should, and notes what it did. -/
theorem onPage {d : TextChange} (enter : Page → Page)
    (leave : Page → Except GenError α × Page → Except GenError β × Page)
    (hcasts : ∀ p, p.casts = γ → (enter p).casts = δ)
    (hnoted : ∀ p, (enter p).arities = p.arities)
    (hpage : ∀ p r, (enter p).Leads d r.2 → p.Leads c (leave p r).2)
    (hleave : ∀ p r b, (leave p r).1 = .ok b → (∃ a, r.1 = .ok a) ∧ (leave p r).2.arities = r.2.arities)
    (h : Leaves d δ us x) : Leaves c γ us ((fun p => leave p (x.runOn (enter p))) : Emit β) where
  page p hp := hpage p _ (h.page (enter p) (hcasts p hp))
  noted p b p' hp hrun n := by
    have hrun : leave p (x.runOn (enter p)) = (.ok b, p') := hrun
    obtain ⟨⟨a, ha⟩, harities⟩ := hleave p (x.runOn (enter p)) b (by rw [hrun])
    rw [hrun] at harities
    rw [harities, h.noted (enter p) a (x.runOn (enter p)).2 (hcasts p hp) (Prod.ext ha rfl) n, hnoted p]

theorem indented (h : Leaves c γ us x) : Leaves c γ us (indented x) :=
  h.onPage (fun p => { p with indent := p.indent + 1 })
    (fun _ r => (r.1, { r.2 with indent := r.2.indent - 1 })) (fun _ hp => hp) (fun _ => rfl)
    (fun _ r hr => { hr with indent := by rw [hr.indent]; rfl }) fun _ _ b hb => ⟨⟨b, hb⟩, rfl⟩

/-- **What is written on a page of its own adds nothing to the page.** -/
theorem detached {x : Emit Unit} (h : Leaves .extended γ us x) : Leaves .kept γ us (detached x) :=
  h.onPage (fun p => { p with out := "", indent := p.indent + 1 })
    (fun p r => (r.1.map fun _ => r.2.out, { r.2 with out := p.out, indent := r.2.indent - 1 }))
    (fun _ hp => hp) (fun _ => rfl)
    (fun _ r hr => { hr with out := rfl, indent := by rw [hr.indent]; rfl })
    fun _ r _ hb => by
      rcases r with ⟨_ | a, p'⟩
      · cases hb
      · exact ⟨⟨a, rfl⟩, rfl⟩

theorem braced {header : String} {x : Emit Unit} (h : Leaves .extended γ us x) :
    Leaves .kept γ us (braced header x) :=
  h.detached.use fun _ => pad.before fun _ => pure

theorem enclosed {first last : String} {x : Emit Unit} (h : Leaves .extended γ us x) :
    Leaves .extended γ us (enclosed first last x) :=
  line.before fun _ => h.indented.done fun _ => line

theorem binary {op : String} {x y : Emit String} (hx : Leaves .kept γ us x) (hy : Leaves .kept γ vs y) :
    Leaves .kept γ (us ++ vs) (binary op x y) :=
  hx.value fun _ => hy.use fun _ => pure

end Leaves

end Emit

end ProgramGen

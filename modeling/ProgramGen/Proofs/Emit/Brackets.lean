import ProgramGen.Proofs.Emit.Success
import ProgramGen.Proofs.Program.Words
import Mathlib.Data.List.Infix

/-!
# Brackets in a text

Brackets pair up in a text if as many close as open, and nowhere more have closed than have opened. A
scan with a counter decides it. A text in which they pair up leaves the counter as it is, wherever it
stands, so texts of that sort can be put into one another freely.
-/

namespace ProgramGen

/-- The kinds of bracket that nest in source text. -/
inductive BracketKind where
  | brace
  | paren
  deriving DecidableEq, Repr

namespace BracketKind

@[simp]
def opening : BracketKind → Char
  | brace => '\x7b'
  | paren => '('

@[simp]
def closing : BracketKind → Char
  | brace => '\x7d'
  | paren => ')'

variable {k : BracketKind} {n i j m : Nat} {xs ys : List Char} {s t : String}

/-- **The brackets pair up**: as many close as open, and in no prefix more close than open. -/
structure Paired (k : BracketKind) (s : String) : Prop where
  even : s.toList.count k.opening = s.toList.count k.closing
  prefixes : ∀ xs, xs <+: s.toList → xs.count k.closing ≤ xs.count k.opening

/-- How many brackets are open after a text, if `n` are before it; nothing if one closes too many. -/
@[simp]
def scan (k : BracketKind) (cs : List Char) (n : Nat) : Option Nat :=
  match cs with
  | [] => some n
  | c :: cs =>
    if c = k.opening then k.scan cs (n + 1)
    else if c = k.closing then if n = 0 then none else k.scan cs (n - 1)
    else k.scan cs n

theorem opening_ne_closing (k : BracketKind) : k.opening ≠ k.closing := by
  cases k <;> decide

/-- A scan comes to an end if no prefix closes too many brackets, and counts those that stay open. -/
theorem scan_eq_some : k.scan xs n = some m ↔
    n + xs.count k.opening = m + xs.count k.closing ∧
      ∀ ys, ys <+: xs → ys.count k.closing ≤ n + ys.count k.opening := by
  have hne := k.opening_ne_closing
  induction xs generalizing n with
  | nil => simp [scan, List.prefix_nil]
  | cons c cs ih =>
    rw [scan, List.count_cons, List.count_cons]
    have hprefixes : ∀ P : List Char → Prop, (∀ ys, ys <+: c :: cs → P ys) ↔ P [] ∧ ∀ ys, ys <+: cs → P (c :: ys) := by
      intro P
      constructor
      · exact fun h => ⟨h _ List.nil_prefix, fun ys hys => h _ (List.cons_prefix_cons.mpr ⟨rfl, hys⟩)⟩
      · rintro ⟨hnil, hcons⟩ ys hys
        rcases List.prefix_cons_iff.mp hys with rfl | ⟨zs, rfl, hzs⟩
        · exact hnil
        · exact hcons zs hzs
    rw [hprefixes]
    simp only [List.count_cons, List.count_nil]
    by_cases hopen : c = k.opening
    · subst hopen
      simp only [if_true, beq_self_eq_true, ih, beq_iff_eq, hne, if_false]
      grind
    · by_cases hclose : c = k.closing
      · subst hclose
        simp only [if_true, beq_self_eq_true, beq_iff_eq, hopen, if_false]
        by_cases hn : n = 0
        · subst hn
          simp only [if_true, reduceCtorEq, false_iff, not_and]
          intro _ _ h
          simpa using h [] List.nil_prefix
        · simp only [if_neg hn, ih]
          grind
      · simp only [hopen, hclose, if_false, beq_iff_eq, ih]
        grind

theorem paired_iff_scan : k.Paired s ↔ k.scan s.toList 0 = some 0 := by
  rw [scan_eq_some]
  simp only [Nat.zero_add]
  exact ⟨fun h => ⟨h.even, h.prefixes⟩, fun h => ⟨h.1, h.2⟩⟩

/-! ## Texts inside texts -/

/-- Behind a text, what `i` open brackets were before it are `j`, whatever stands around. -/
def Moves (k : BracketKind) (i j : Nat) (s : String) : Prop :=
  ∀ n cs, k.scan (s.toList ++ cs) (n + i) = k.scan cs (n + j)

/-- A scan of one text after the other, with some more brackets open around both. -/
theorem scan_append (h : k.scan xs n = some m) (d : Nat) : k.scan (xs ++ ys) (n + d) = k.scan ys (m + d) := by
  induction xs generalizing n with
  | nil =>
    cases h
    rfl
  | cons c cs ih =>
    rw [scan] at h
    rw [List.cons_append, scan]
    split
    · rw [if_pos ‹_›] at h
      rw [← ih h]
      congr 1
      omega
    · rw [if_neg ‹_›] at h
      split
      · rw [if_pos ‹_›] at h
        split at h
        · cases h
        · rw [if_neg (by omega), ← ih h]
          congr 1
          omega
      · rw [if_neg ‹_›] at h
        exact ih h

/-- **Where the brackets pair up, the counter does not move.** -/
@[simp]
theorem Paired.scan (h : k.Paired s) : k.scan (s.toList ++ xs) n = k.scan xs n := by
  simpa using scan_append (paired_iff_scan.mp h) n

theorem Paired.of_scan (h : ∀ n cs, k.scan (s.toList ++ cs) n = k.scan cs n) : k.Paired s :=
  paired_iff_scan.mpr (by simpa using h 0 [])

theorem Paired.moves (h : k.Paired s) (i : Nat) : k.Moves i i s := fun _ _ => h.scan

theorem Moves.paired (h : k.Moves 0 0 s) : k.Paired s := .of_scan h

theorem Moves.append (hs : k.Moves i m s) (ht : k.Moves m j t) : k.Moves i j (s ++ t) := fun n cs => by
  rw [String.toList_append, List.append_assoc, hs, ht]

/-- More brackets may be open around a text. -/
theorem Moves.around (h : k.Moves i j s) (d : Nat) : k.Moves (i + d) (j + d) s := fun n cs => by
  have := h (n + d) cs
  rwa [Nat.add_right_comm, Nat.add_right_comm n d j, Nat.add_assoc, Nat.add_assoc] at this

theorem paired_empty : k.Paired "" := .of_scan fun _ _ => by simp

theorem Paired.append (hs : k.Paired s) (ht : k.Paired t) : k.Paired (s ++ t) :=
  ((hs.moves 0).append (ht.moves 0)).paired

theorem Paired.ite {c : Prop} [Decidable c] (hs : k.Paired s) (ht : k.Paired t) :
    k.Paired (if c then s else t) := by
  split
  · exact hs
  · exact ht

/-- **A text without brackets is one where they pair up.** -/
theorem paired_of_free (h : ∀ c ∈ s.toList, c ≠ k.opening ∧ c ≠ k.closing) : k.Paired s := by
  refine .of_scan fun n cs => ?_
  generalize s.toList = xs at h
  induction xs with
  | nil => rfl
  | cons c xs ih =>
    obtain ⟨⟨hopen, hclose⟩, hxs⟩ := List.forall_mem_cons.mp h
    rw [List.cons_append, scan, if_neg hopen, if_neg hclose, ih hxs]

theorem paired_toString (n : Nat) : k.Paired (toString n) := by
  refine paired_of_free fun c hc => ?_
  rw [Nat.toString_eq_ofList_toDigits, String.toList_ofList] at hc
  have hdigit := Nat.isDigit_of_mem_toDigits (by decide) (by decide) hc
  constructor <;> rintro rfl <;> cases k <;> cases hdigit

theorem paired_padding (n : Nat) : k.Paired (Emit.padding n) := by
  refine paired_of_free fun c hc => ?_
  rw [Emit.padding, String.toList_ofList] at hc
  obtain ⟨-, rfl⟩ := List.mem_replicate.mp hc
  cases k <;> decide

theorem paired_commas {ts : List String} (h : ∀ t ∈ ts, k.Paired t) : k.Paired (commas ts) := by
  unfold commas
  induction ts with
  | nil => exact paired_empty
  | cons t ts ih =>
    obtain ⟨ht, hts⟩ := List.forall_mem_cons.mp h
    cases ts with
    | nil =>
      rw [String.intercalate_singleton]
      exact ht
    | cons u us =>
      rw [String.intercalate_cons_cons]
      have hrest := ih hts
      generalize ", ".intercalate (u :: us) = rest at hrest
      exact .of_scan fun n cs => by cases k <;> simp [ht, hrest]

theorem paired_inAngles {ts : List String} (h : ∀ t ∈ ts, k.Paired t) : k.Paired (inAngles ts) := by
  have hcommas := paired_commas h
  unfold inAngles
  split
  · exact paired_empty
  · exact .of_scan fun n cs => by cases k <;> simp [hcommas]

/-- A type is written with names in which the brackets pair up. -/
def Spelled (k : BracketKind) (t : Ty) : Prop := ∀ w ∈ t.names, k.Paired w

theorem spelled_args {c : TypeCtor} {args : List Ty} (h : k.Spelled (.applied c args)) : ∀ t ∈ args, k.Spelled t :=
  fun t ht w hw => h w (List.mem_cons_of_mem _ (Ty.namesOf_eq args ▸ List.mem_flatMap.mpr ⟨t, ht, hw⟩))

theorem paired_name {t : Ty} (h : k.Spelled t) : k.Paired t.name := by
  cases t with
  | wildcard v b =>
    show k.Paired "?"
    exact .of_scan fun n cs => by cases k <;> simp
  | builtin n i l p s | simple n s | param p | constructor c | applied c args => exact h _ List.mem_cons_self

theorem spelled_of_flatMap {ts : List Ty} (h : ∀ w ∈ ts.flatMap Ty.names, k.Paired w) : ∀ t ∈ ts, k.Spelled t :=
  fun t ht w hw => h w (List.mem_flatMap.mpr ⟨t, ht, hw⟩)

theorem paired_mark (v : Variance) : k.Paired v.mark := by
  cases v <;> exact .of_scan fun n cs => by cases k <;> simp [Variance.mark]

theorem paired_arith (op : ArithOp) : k.Paired op.symbol := by
  cases op <;> exact .of_scan fun n cs => by cases k <;> simp [ArithOp.symbol]

theorem paired_cmp (op : CmpOp) : k.Paired op.symbol := by
  cases op <;> exact .of_scan fun n cs => by cases k <;> simp [CmpOp.symbol]

theorem paired_eq (op : EqOp) : k.Paired op.symbol := by
  cases op <;> exact .of_scan fun n cs => by cases k <;> simp [EqOp.symbol]

theorem paired_logical (op : LogicalOp) : k.Paired op.symbol := by
  cases op <;> exact .of_scan fun n cs => by cases k <;> simp [LogicalOp.symbol]

theorem paired_step (op : StepOp) : k.Paired op.symbol := by
  cases op <;> exact .of_scan fun n cs => by cases k <;> simp [StepOp.symbol]

/-- How many brackets of the kind a line opens that ends in a brace. -/
@[simp]
def inBraces : BracketKind → Nat
  | brace => 1
  | paren => 0

/-- A header in front of a brace opens one, and the line of the brace that closes it closes one. -/
theorem header_moves {header : String} (h : k.Paired header) : k.Moves 0 k.inBraces (header ++ " \x7b") := fun n cs => by
  cases k <;> simp [h]

theorem footer_moves : k.Moves k.inBraces 0 "\x7d" := fun n cs => by cases k <;> simp

end BracketKind

namespace Emit

variable {α β : Type} {k : BracketKind} {i j m : Nat} {x : Emit α} {f : α → Emit β} {Q Q' : α → Prop}
variable {R : β → Prop} {text first last header : String} {body : Emit Unit}

/-- Variables are narrowed to types with names in which the brackets pair up. -/
def Tidy (k : BracketKind) (p : Page) : Prop := ∀ c ∈ p.casts, k.Spelled c.2

/-- Where the computation succeeds, it writes a text behind which `j` brackets are open if `i` were, and
gives a value that satisfies `Q`. -/
def Shifts (k : BracketKind) (i j : Nat) (x : Emit α) (Q : α → Prop) : Prop :=
  ∀ p a p', Tidy k p → x.runOn p = (.ok a, p') →
    Tidy k p' ∧ Q a ∧ ∃ t, p'.out = p.out ++ t ∧ k.Moves i j t

/-- The computation writes nothing that counts, and gives a text in which the brackets pair up. -/
abbrev Pairs (k : BracketKind) (x : Emit String) : Prop := Shifts k 0 0 x k.Paired

namespace Shifts

/-- More brackets may be open around what is written. -/
theorem around (h : Shifts k i j x Q) (d : Nat) : Shifts k (i + d) (j + d) x Q := fun p a p' hp hrun => by
  obtain ⟨htidy, ha, t, hout, ht⟩ := h p a p' hp hrun
  exact ⟨htidy, ha, t, hout, ht.around d⟩

theorem inside (h : Shifts k 0 0 x Q) (d : Nat) : Shifts k d d x Q := by
  have := h.around d
  rwa [Nat.zero_add] at this

theorem pure {a : α} (h : Q a) : Shifts k i i (Pure.pure a : Emit α) Q := fun p a' p' hp hrun => by
  cases hrun
  exact ⟨hp, h, "", by simp, BracketKind.paired_empty.moves i⟩

theorem throw {e : GenError} : Shifts k i j (MonadExcept.throw e : Emit α) Q := fun _ _ _ _ hrun => by
  cases hrun

theorem bind (hx : Shifts k i m x Q) (hf : ∀ a, Q a → Shifts k m j (f a) R) : Shifts k i j (x >>= f) R := by
  intro p b p' hp hrun
  rw [runOn_bind] at hrun
  rcases hx' : x.runOn p with ⟨_ | a, p₁⟩
  · rw [hx'] at hrun
    cases hrun
  · rw [hx'] at hrun
    obtain ⟨htidy, ha, t, hout, ht⟩ := hx p a p₁ hp hx'
    obtain ⟨htidy', hb, t', hout', ht'⟩ := hf a ha p₁ b p' htidy hrun
    exact ⟨htidy', hb, t ++ t', by rw [hout', hout, String.append_assoc], ht.append ht'⟩

theorem get {f : Page → Emit β} (h : ∀ p, Tidy k p → Shifts k i j (f p) R) : Shifts k i j (get >>= f) R :=
  fun p b p' hp hrun => h p hp p b p' hp hrun

/-- What is noted on a page besides text and narrowed variables is not seen in the text. -/
theorem modify {change : Page → Page} (h : ∀ p, (change p).casts = p.casts ∧
    ∃ t, (change p).out = p.out ++ t ∧ k.Moves i j t) :
    Shifts k i j (modify change : Emit Unit) fun _ => True := fun p a p' hp hrun => by
  cases hrun
  obtain ⟨hcasts, ht⟩ := h p
  refine ⟨?_, trivial, ht⟩
  show ∀ c ∈ (change p).casts, _
  rw [hcasts]
  exact hp

theorem mapM {g : α → Emit β} {xs : List α} (h : ∀ a ∈ xs, Shifts k i i (g a) R) :
    Shifts k i i (xs.mapM g) fun bs => ∀ b ∈ bs, R b := by
  induction xs with
  | nil =>
    rw [List.mapM_nil]
    exact pure (by simp)
  | cons a xs ih =>
    obtain ⟨ha, hxs⟩ := List.forall_mem_cons.mp h
    rw [List.mapM_cons]
    exact ha.bind fun _ hb => (ih hxs).bind fun _ hbs => pure (List.forall_mem_cons.mpr ⟨hb, hbs⟩)

theorem forM {g : α → Emit Unit} {xs : List α} (h : ∀ a ∈ xs, Shifts k i i (g a) fun _ => True) :
    Shifts k i i (xs.forM g) fun _ => True := by
  induction xs with
  | nil => exact pure trivial
  | cons a xs ih =>
    obtain ⟨ha, hxs⟩ := List.forall_mem_cons.mp h
    exact ha.bind fun _ _ => ih hxs

/-! ## Pages -/

theorem line (h : k.Moves i j text) : Shifts k i j (line text) fun _ => True := by
  refine modify fun p => ⟨rfl, padding p.indent ++ text ++ "\n", ?_, ?_⟩
  · show p.out ++ padding p.indent ++ text ++ "\n" = _
    simp only [String.append_assoc]
  · have hend : k.Paired "\n" := .of_scan fun n cs => by cases k <;> simp
    exact (((BracketKind.paired_padding _).moves i).append h).append (hend.moves j)

theorem blank : Shifts k i i blank fun _ => True := by
  refine modify fun p => ⟨by split <;> rfl, ?_⟩
  have hend : k.Paired "\n" := .of_scan fun n cs => by cases k <;> simp
  split
  · exact ⟨"", by simp, BracketKind.paired_empty.moves i⟩
  · exact ⟨"\n", rfl, hend.moves i⟩

theorem pad : Shifts k i i pad k.Paired := get fun _ _ => pure (BracketKind.paired_padding _)

theorem indented (h : Shifts k i j x Q) : Shifts k i j (indented x) Q := fun p a p' hp hrun => by
  have hindented : (Emit.indented x).runOn p = ((x.runOn { p with indent := p.indent + 1 }).1,
      { (x.runOn { p with indent := p.indent + 1 }).2 with
        indent := (x.runOn { p with indent := p.indent + 1 }).2.indent - 1 }) := rfl
  rcases hx : x.runOn { p with indent := p.indent + 1 } with ⟨r, page⟩
  rw [hindented, hx] at hrun
  cases hrun
  exact h { p with indent := p.indent + 1 } a page hp hx

/-- **What is written on a page of its own is a text in which the brackets pair up.** -/
theorem detached (h : Shifts k 0 0 body fun _ => True) : Shifts k i i (detached body) k.Paired := by
  intro p a p' hp hrun
  have hdetached : (Emit.detached body).runOn p =
      ((body.runOn { p with out := "", indent := p.indent + 1 }).1.map fun _ =>
        (body.runOn { p with out := "", indent := p.indent + 1 }).2.out,
      { (body.runOn { p with out := "", indent := p.indent + 1 }).2 with
        out := p.out, indent := (body.runOn { p with out := "", indent := p.indent + 1 }).2.indent - 1 }) := rfl
  rcases hbody : body.runOn { p with out := "", indent := p.indent + 1 } with ⟨_ | u, page⟩
  · rw [hdetached, hbody] at hrun
    cases hrun
  · rw [hdetached, hbody] at hrun
    cases hrun
    obtain ⟨htidy, -, t, hout, ht⟩ := h { p with out := "", indent := p.indent + 1 } u page hp hbody
    obtain rfl : page.out = t := hout.trans (String.empty_append ..)
    exact ⟨htidy, ht.paired, "", by simp, BracketKind.paired_empty.moves i⟩

theorem braced (hheader : k.Paired header) (h : Shifts k 0 0 body fun _ => True) : Pairs k (braced header body) :=
  h.detached.bind fun _ hbody => pad.bind fun _ hpad =>
    pure (.of_scan fun n cs => by cases k <;> simp [hheader, hbody, hpad])

theorem enclosed (hfirst : k.Moves 0 m first) (hlast : k.Moves m 0 last) (h : Shifts k 0 0 body fun _ => True) :
    Shifts k 0 0 (enclosed first last body) fun _ => True :=
  (line hfirst).bind fun _ _ => ((h.inside m).indented).bind fun _ _ => line hlast

theorem binary {op : String} {lhs rhs : Emit String} (hop : k.Paired op) (hl : Pairs k lhs) (hr : Pairs k rhs) :
    Pairs k (binary op lhs rhs) :=
  hl.bind fun _ ha => hr.bind fun _ hb => pure (.of_scan fun n cs => by cases k <;> simp [ha, hb, hop])

end Shifts

end Emit

end ProgramGen

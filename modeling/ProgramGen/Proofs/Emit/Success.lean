import ProgramGen.Emit.Java

/-!
# Emission that succeeds

A computation that writes succeeds on every page if its parts do. In Java types can always be written;
so whether an expression, a statement or a declaration can be written is a matter of its parts, and of
where blocks, loops and functions without a body stand.
-/

namespace ProgramGen

namespace Emit

variable {α β : Type} {x : Emit α} {f : α → Emit β} {body : Emit Unit} {text : String}

/-- The computation gives a value on every page. -/
def Succeeds (x : Emit α) : Prop := ∀ p, ∃ a p', x.runOn p = (.ok a, p')

theorem runOn_bind (x : Emit α) (f : α → Emit β) (p : Page) :
    (x >>= f).runOn p = match x.runOn p with
      | (.ok a, p') => (f a).runOn p'
      | (.error e, p') => (.error e, p') := by
  show ExceptT.bindCont f (x p).1 (x p).2 = _
  unfold Emit.runOn
  rcases x p with ⟨_ | a, p'⟩ <;> rfl

namespace Succeeds

theorem pure {a : α} : (Pure.pure a : Emit α).Succeeds := fun p => ⟨a, p, rfl⟩

theorem bind (hx : x.Succeeds) (hf : ∀ a, (f a).Succeeds) : (x >>= f).Succeeds := fun p => by
  obtain ⟨a, p', hrun⟩ := hx p
  rw [runOn_bind, hrun]
  exact hf a p'

/-- To read the page changes nothing. -/
theorem get {f : Page → Emit β} (h : ∀ p, (f p).Succeeds) : (get >>= f).Succeeds := fun p => h p p

theorem modify {change : Page → Page} : (modify change : Emit Unit).Succeeds := fun _ => ⟨(), _, rfl⟩

theorem mapM {g : α → Emit β} {xs : List α} (h : ∀ a ∈ xs, (g a).Succeeds) : (xs.mapM g).Succeeds := by
  induction xs with
  | nil =>
    rw [List.mapM_nil]
    exact pure
  | cons a xs ih =>
    obtain ⟨ha, hxs⟩ := List.forall_mem_cons.mp h
    rw [List.mapM_cons]
    exact ha.bind fun _ => (ih hxs).bind fun _ => pure

theorem forM {g : α → Emit Unit} {xs : List α} (h : ∀ a ∈ xs, (g a).Succeeds) : (xs.forM g).Succeeds := by
  induction xs with
  | nil => exact pure
  | cons a xs ih =>
    obtain ⟨ha, hxs⟩ := List.forall_mem_cons.mp h
    exact ha.bind fun _ => ih hxs

/-! ## Pages -/

theorem line : (line text).Succeeds := modify

theorem blank : blank.Succeeds := modify

theorem pad : pad.Succeeds := get fun _ => pure

theorem indented (h : x.Succeeds) : (indented x).Succeeds := fun p => by
  obtain ⟨a, p', hrun⟩ := h { p with indent := p.indent + 1 }
  have hindented : (Emit.indented x).runOn p = ((x.runOn { p with indent := p.indent + 1 }).1,
      { (x.runOn { p with indent := p.indent + 1 }).2 with
        indent := (x.runOn { p with indent := p.indent + 1 }).2.indent - 1 }) := rfl
  exact ⟨a, _, by rw [hindented, hrun]⟩

theorem detached (h : body.Succeeds) : (detached body).Succeeds := fun p => by
  obtain ⟨a, p', hrun⟩ := h { p with out := "", indent := p.indent + 1 }
  have hdetached : (Emit.detached body).runOn p =
      ((body.runOn { p with out := "", indent := p.indent + 1 }).1.map fun _ =>
        (body.runOn { p with out := "", indent := p.indent + 1 }).2.out,
      { (body.runOn { p with out := "", indent := p.indent + 1 }).2 with
        out := p.out, indent := (body.runOn { p with out := "", indent := p.indent + 1 }).2.indent - 1 }) := rfl
  exact ⟨p'.out, _, by rw [hdetached, hrun]; rfl⟩

theorem braced {header : String} (h : body.Succeeds) : (braced header body).Succeeds :=
  h.detached.bind fun _ => pad.bind fun _ => pure

theorem enclosed {first last : String} (h : body.Succeeds) : (enclosed first last body).Succeeds :=
  line.bind fun _ => h.indented.bind fun _ => line

theorem binary {op : String} {lhs rhs : Emit String} (hl : lhs.Succeeds) (hr : rhs.Succeeds) :
    (binary op lhs rhs).Succeeds :=
  hl.bind fun _ => hr.bind fun _ => pure

end Succeeds

end Emit

namespace Java

open Emit

variable {α : Type} {t : Ty} {ps : List TypeParam} {body : Emit α} {c : Expr} {text : Emit String}

/-! ## Types and headers -/

theorem useArities_succeeds {ns : List Nat} : (useArities ns).Succeeds := .modify

theorem type_succeeds : (type t).Succeeds := useArities_succeeds.bind fun _ => .pure

theorem typeArg_succeeds : (typeArg t).Succeeds := useArities_succeeds.bind fun _ => .pure

theorem exactType_succeeds : (exactType t).Succeeds := useArities_succeeds.bind fun _ => .pure

theorem rawType_succeeds : (rawType t).Succeeds := by
  unfold rawType
  split <;> exact useArities_succeeds.bind fun _ => .pure

theorem returnType_succeeds : (returnType t).Succeeds := by
  unfold returnType
  split
  · exact .pure
  · exact type_succeeds

theorem typeParams_succeeds : (typeParams ps).Succeeds := by
  refine .bind (.mapM fun p _ => ?_) fun _ => .pure
  unfold typeParam
  split
  · exact typeArg_succeeds.bind fun _ => .pure
  · exact .pure

theorem callTypeArgs_succeeds {ts : List Ty} : (callTypeArgs ts).Succeeds :=
  .bind (.mapM fun _ _ => exactType_succeeds) fun _ => .pure

theorem paramList_succeeds {params : List (String × Ty)} : (paramList params).Succeeds :=
  .bind (.mapM fun _ _ => type_succeeds.bind fun _ => .pure) fun _ => .pure

theorem methodHeader_succeeds {f : FuncDecl} {owner : Option ClassKind} : (methodHeader f owner).Succeeds :=
  typeParams_succeeds.bind fun _ => returnType_succeeds.bind fun _ =>
    .bind (.mapM fun _ _ => type_succeeds.bind fun _ => .pure) fun _ => .pure

theorem classFields_succeeds {name : String} {isInterface : Bool} {fields : List FieldDecl}
    {superArgs : Option String} : (classFields name isInterface fields superArgs).Succeeds := by
  unfold classFields
  refine .bind (.forM fun _ _ => type_succeeds.bind fun _ => .line) fun _ => ?_
  split
  · extract_lets assigned constructor
    have hassigned : ∀ u, (assigned u).Succeeds := fun u => .forM fun _ _ => .line
    have hconstructor : ∀ u, (constructor u).Succeeds := fun u => by
      refine paramList_succeeds.bind fun _ => .enclosed ?_
      split
      · exact Succeeds.line.bind hassigned
      · exact hassigned ()
    split
    · exact Succeeds.blank.bind hconstructor
    · exact hconstructor ()
  · exact .pure

/-! ## Expressions in their places -/

theorem narrowed_succeeds (h : body.Succeeds) : (narrowed c body).Succeeds := by
  unfold narrowed
  split
  · rename_i var target t
    intro p
    obtain ⟨a, p', hrun⟩ := h { p with casts := (var, target) :: p.casts }
    have hnarrowed : (narrowed (.instanceOf var target t) body).runOn p =
        ((body.runOn { p with casts := (var, target) :: p.casts }).1,
          { (body.runOn { p with casts := (var, target) :: p.casts }).2 with
            casts := (body.runOn { p with casts := (var, target) :: p.casts }).2.casts.tail }) := rfl
    exact ⟨a, _, hnarrowed.trans (by rw [hrun])⟩
  · exact h

theorem variableText_succeeds {name : String} : (variableText name).Succeeds := by
  refine .get fun p => ?_
  split
  · exact type_succeeds.bind fun _ => .pure
  · exact .pure

theorem asReceiver_succeeds (h : text.Succeeds) : (asReceiver c text).Succeeds := by
  unfold asReceiver
  split
  · split
    · exact type_succeeds.bind fun _ => h.bind fun _ => .pure
    · exact h
  · exact h

theorem funcRefText_succeeds {receiver name : String} : (funcRefText receiver name t).Succeeds := by
  refine useArities_succeeds.bind fun _ => ?_
  split
  · split
    · exact paramList_succeeds.bind fun _ => .pure
    · exact .pure
  · exact .pure

theorem arrayText_succeeds {values : List String} : (arrayText t values).Succeeds := by
  unfold arrayText
  extract_lets elem elem'
  clear_value elem'
  split
  · exact exactType_succeeds.bind fun _ => .pure
  · split
    · exact type_succeeds.bind fun _ => .pure
    · exact exactType_succeeds.bind fun _ => rawType_succeeds.bind fun _ => .pure
    · exact exactType_succeeds.bind fun _ => .pure

end Java

end ProgramGen

import ProgramGen.Proofs.Run.Context
import ProgramGen.Proofs.Run.Logic
import ProgramGen.Proofs.Scope.Members
import ProgramGen.Proofs.Scope.Namespace
import Mathlib.Logic.Relation

/-!
# The course of a run

Two operations change the members of classes: one attaches a member, the other completes a function.
Whatever else a run does leaves classes and their scopes as they are, apart from classes that are new.
So a run is a course of such moves, and what is said of the two records of a member is said in the
middle of a run as well as at its end.
-/

namespace ProgramGen

variable {s s' s₁ : Session} {ns : Namespace} {d : Decl} {n : String} {c c' : Context}

/-! ## Members that stay -/

/-- The classes of a symbol table stay what they are, and their scopes keep their members. Classes may
be new. -/
structure Context.SameMembers (c c' : Context) : Prop where
  classes : c.classes .global false <+: c'.classes .global false
  inside : ∀ ns, ns.className? ≠ none →
    (c'.declarations ns).filter Decl.isMember = (c.declarations ns).filter Decl.isMember

/-- Where no class is new, the records are kept. -/
theorem Context.SameMembers.kept (h : c.SameMembers c')
    (hclasses : c'.classes .global false = c.classes .global false) (hc : c.Kept) : c'.Kept := by
  refine ⟨fun d hd => ?_, fun d hd => hc.named d (hclasses ▸ hd)⟩
  rw [hclasses] at hd
  have hscope : d.scope.className? ≠ none := by
    rw [ClassDecl.scope, Namespace.className?_classScope (hc.named d hd)]
    simp
  obtain ⟨hfields, hfuncs⟩ := Context.members_eq_of_filter (h.inside d.scope hscope)
  rw [hfields, hfuncs]
  exact hc.inStep d hd

namespace Session

/-! ## Moves -/

/-- One move of a run, as its classes see it. -/
inductive Move (s s' : Session) : Prop where
  /-- A declaration is attached to a scope. -/
  | attach (ns : Namespace) (d : Decl) (h : (Gen.attach ns d).runIn s = (.ok (), s'))
  /-- A function is completed. -/
  | updateFunc (ns : Namespace) (f : FuncDecl) (h : (Gen.updateFunc ns f).runIn s = (.ok (), s'))
  /-- Something happens to no member. -/
  | aside (h : s.context.SameMembers s'.context)

/-- Some moves, each of which keeps the records of members in step. -/
def Course : Session → Session → Prop :=
  Relation.ReflTransGen fun s s' => s.Move s' ∧ (s.context.Kept → s'.context.Kept)

namespace Course

theorem refl : s.Course s := Relation.ReflTransGen.refl

theorem trans (h : s.Course s₁) (h' : s₁.Course s') : s.Course s' := Relation.ReflTransGen.trans h h'

theorem kept (h : s.Course s') (hs : s.context.Kept) : s'.context.Kept := by
  induction h with
  | refl => exact hs
  | tail _ hmove ih => exact hmove.2 ih

/-- **The records of members are in step after each move.** -/
theorem inStep (h : s.Course s') (hs : s.context.Kept) :
    Relation.ReflTransGen (fun s s' => s.Move s' ∧ s'.context.InStep) s s' := by
  induction h with
  | refl => exact .refl
  | tail hcourse hmove ih => exact ih.tail ⟨hmove.1, (hmove.2 (kept hcourse hs)).inStep⟩

/-- A move to a session where the records are in step. -/
theorem of_kept (h : s.Move s') (hs' : s'.context.Kept) : s.Course s' := .single ⟨h, fun _ => hs'⟩

/-! ## Moves aside -/

theorem aside (hclasses : s'.classes = s.classes) (hinside : ∀ ns, ns.className? ≠ none →
    (s'.context.declarations ns).filter Decl.isMember = (s.context.declarations ns).filter Decl.isMember) :
    s.Course s' := by
  have hsame : s.context.SameMembers s'.context := by
    refine ⟨?_, hinside⟩
    show s.classes <+: s'.classes
    rw [hclasses]
  exact .single ⟨.aside hsame, hsame.kept hclasses⟩

theorem of_declarations (h : ∀ ns, s'.context.declarations ns = s.context.declarations ns) :
    s.Course s' := by
  have hclasses : s'.classes = s.classes := by
    show s'.context.classes .global false = s.context.classes .global false
    rw [Context.classes_global, Context.classes_global, h]
  exact aside hclasses fun ns _ => congrArg _ (h ns)

theorem of_context (h : s'.context = s.context) : s.Course s' := of_declarations fun _ => by rw [h]

/-- A scope that is no class's, and not around all classes, has nothing to do with members. -/
theorem of_scope (hns : ns ≠ .global) (hclass : ns.className? = none)
    (h : ∀ m, m ≠ ns → s'.context.declarations m = s.context.declarations m) : s.Course s' := by
  have hclasses : s'.classes = s.classes := by
    show s'.context.classes .global false = s.context.classes .global false
    rw [Context.classes_global, Context.classes_global, h _ (Ne.symm hns)]
  exact aside hclasses fun m hm => congrArg _ (h m fun heq => hm (heq ▸ hclass))

/-- What is registered is no class, and in the scope of a class no member. -/
theorem push (hkind : d.kind ≠ .cls) (hmember : ns.className? ≠ none → d.isMember = false)
    (h : ∀ m, s'.context.declarations m = (s.context.push ns d).declarations m) : s.Course s' := by
  have hclasses : s'.classes = s.classes := by
    show s'.context.classes .global false = s.context.classes .global false
    have hnone : Context.asClass? d = none := by
      cases d <;> first | rfl | exact absurd rfl hkind
    rw [Context.classes_global, Context.classes_global, h, Context.declarations_push, List.filterMap_append]
    split <;> simp [hnone]
  refine aside hclasses fun m hm => ?_
  rw [h, Context.declarations_push, List.filter_append]
  split
  · simp [hmember (‹m = ns› ▸ hm)]
  · simp

/-- A class is registered. -/
theorem pushClass {d : ClassDecl} (h : s'.context = s.context.push .global (.cls d)) (hs' : s'.context.Kept) :
    s.Course s' := by
  refine of_kept (.aside ⟨?_, fun m hm => ?_⟩) hs'
  · rw [h, Context.classes_push_global]
    exact List.prefix_append _ _
  · rw [h, Context.declarations_push, if_neg, List.append_nil]
    rintro rfl
    exact hm Namespace.className?_global

/-- A variable that is forgotten in the scope of no class is no member. -/
theorem removeVar (hns : ns ≠ .global) (hclass : ns.className? = none) :
    s.Course (s.withContext (s.context.removeVar ns n)) := by
  refine of_scope hns hclass fun m hm => ?_
  rw [context_withContext, Context.declarations, Context.removeVar, Context.scope_set, if_neg (Ne.symm hm)]
  rfl

/-- A change of a variable is a change of no member. -/
theorem modifyVar {f : Decl → Decl} (hf : ∀ d, f d = d ∨ ∃ v w, d = .var v ∧ f d = .var w) :
    s.Course (s.withContext (s.context.modify ns .var n f)) := by
  have hsame : ∀ {α : Type} (sel : Decl → Option α) (ds : List Decl), (∀ v, sel (.var v) = none) →
      (Context.modifyFirst (Bindings.isNamed .var n) f ds).filterMap sel = ds.filterMap sel := by
    intro α sel ds hsel
    induction ds with
    | nil => rfl
    | cons d ds ih =>
      rw [Context.modifyFirst]
      split
      · rcases hf d with heq | ⟨v, w, rfl, heq⟩
        · rw [heq]
        · rw [heq, List.filterMap_cons_none (hsel w), List.filterMap_cons_none (hsel v)]
      · rw [List.filterMap_cons, List.filterMap_cons, ih]
  have hall : ∀ {α : Type} (sel : Decl → Option α) (m : Namespace), (∀ v, sel (.var v) = none) →
      ((s.context.modify ns .var n f).declarations m).filterMap sel = (s.context.declarations m).filterMap sel := by
    intro α sel m hsel
    rw [Context.declarations, Context.modify, Context.scope_set]
    split
    · subst ns
      exact hsame sel _ hsel
    · rfl
  refine aside ?_ fun m _ => ?_
  · show (s.context.modify ns .var n f).classes .global false = s.context.classes .global false
    rw [Context.classes_global, Context.classes_global]
    exact hall _ _ fun _ => rfl
  · rw [← List.filterMap_eq_filter]
    exact hall _ m fun _ => rfl

end Course

end Session

end ProgramGen

import ProgramGen.Proofs.Writing.Java
import ProgramGen.Proofs.Writing.Kotlin

/-!
# Writing leaves pages in order

Bodies are written on pages of their own and one level deeper, and branches with a variable narrowed; and an
error may come out of any depth. All the same a page is found again as it was, with its level and its
narrowed variables, and with its text or with more text behind it.
-/

namespace ProgramGen

open Emit

/-- **To write disturbs nothing on a page.** In either language and on any page, whether it succeeds or
fails: to write an expression leaves the text of the page, its level of indentation and its narrowed
variables as they were; to write a statement or a declaration, methods among them, leaves the level and the
narrowed variables as they were and only adds to the text. The arities that are noted become no fewer. -/
theorem writing_framed (p : Page) :
    (∀ k : Kotlin.Settings,
      (∀ e, p.Leads .kept ((Kotlin.expr k e).runOn p).2) ∧
      (∀ s, p.Leads .extended ((Kotlin.stmt k s).runOn p).2) ∧
      (∀ d, p.Leads .extended ((Kotlin.decl k d).runOn p).2) ∧
      ∀ owner f, p.Leads .extended ((Kotlin.func k owner f).runOn p).2) ∧
    ∀ strict : Bool,
      (∀ e, p.Leads .kept ((Java.expr strict e).runOn p).2) ∧
      (∀ s, p.Leads .extended ((Java.stmt strict s).runOn p).2) ∧
      (∀ d, p.Leads .extended ((Java.localDecl strict d).runOn p).2) ∧
      (∀ d, p.Leads .extended ((Java.member strict d).runOn p).2) ∧
      ∀ owner f, p.Leads .extended ((Java.method strict owner f).runOn p).2 := by
  refine ⟨fun k => ⟨fun e => ?_, fun s => ?_, fun d => ?_, fun owner f => ?_⟩,
    fun strict => ⟨fun e => ?_, fun s => ?_, fun d => ?_, fun d => ?_, fun owner f => ?_⟩⟩
  · exact (Kotlin.expr_leaves e).value.page p rfl
  · exact (Kotlin.stmt_leaves s).page p rfl
  · exact (Kotlin.decl_leaves d).page p rfl
  · exact (Kotlin.method_leaves owner f).page p rfl
  · exact (Java.expr_leaves e p.casts).value.page p rfl
  · exact (Java.stmt_leaves s p.casts).page p rfl
  · exact (Java.localDecl_leaves d p.casts).page p rfl
  · exact (Java.member_leaves d).page p rfl
  · exact (Java.method_leaves (Java.func_leaves f p.casts)).page p rfl

/-- A program is written behind what is on the page, and what is written of it stays if it fails. -/
theorem Program.emit_framed (q : Program) (strict : Bool) (p : Page) :
    p.Leads .extended ((q.emit strict).runOn p).2 := by
  unfold Program.emit
  split
  · exact (Kotlin.declarations_leaves q.topLevel).page p rfl
  · exact (Java.declarations_leaves q.topLevel).page p rfl

end ProgramGen

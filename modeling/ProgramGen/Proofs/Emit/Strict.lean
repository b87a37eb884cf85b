import ProgramGen.Emit.Source
import ProgramGen.Proofs.Emit.JavaStrict
import ProgramGen.Proofs.Emit.KotlinStrict
import ProgramGen.Proofs.Run.Context

/-!
# Programs without placeholders

Strict emission is emission that refuses placeholders, and otherwise it is the same in both
languages: a program that it accepts has the same text as without it, and where there is no
placeholder it makes no difference at all, not even for the error of a program that has no text.
-/

namespace ProgramGen

open Emit

namespace Program

variable {plain : Prop} {p : Program}

/-- **Emission follows strict emission.** -/
theorem emit_follows (hplain : plain → ∀ v e, p.Contains v e → e.isUnresolved = false) :
    Follows plain (p.emit true) (p.emit false) := by
  unfold emit
  split
  · exact Kotlin.declarations_alike
      (forall_places fun v e hc h => Kotlin.alike_of_places (fun hp => hplain hp v e hc) h)
  · exact Java.declarations_alike
      (forall_places fun v e hc h => Java.alike_of_places (fun hp => hplain hp v e hc) h)

theorem source_congr (h : (p.emit false).runOn .blank = (p.emit true).runOn .blank) :
    p.source false = p.source true := by
  unfold source
  rw [h]

theorem succeedsOn_of_source {text : String} (h : p.source true = .ok text) :
    (p.emit true).SucceedsOn .blank := by
  unfold source at h
  rcases hrun : (p.emit true).runOn .blank with ⟨_ | a, page⟩
  · rw [hrun] at h
    cases h
  · exact ⟨a, by rw [hrun]⟩

/-- **Strict emission is emission restricted**: a text that it gives is the text, and on programs
without placeholders it does the same. -/
theorem source_strict :
    (∀ (p : Program) (text : String), p.source true = .ok text → p.source false = .ok text) ∧
      ∀ p : Program, (∀ v e, p.Contains v e → e.isUnresolved = false) →
        p.source true = p.source false := by
  refine ⟨fun p text h => ?_, fun p hplain => ?_⟩
  · -- Nothing is assumed of the placeholders, so only what succeeds is followed.
    have hfollows : Follows False (p.emit true) (p.emit false) := emit_follows fun h => h.elim
    rw [source_congr (hfollows .blank (.inr (succeedsOn_of_source h))), h]
  · exact (source_congr (emit_follows (fun _ => hplain) .blank (.inl trivial))).symm

/-- A program of one variable. -/
def counter : Program :=
  let t := Language.kotlin.builtin .integer
  ⟨.kotlin, Context.empty.push .global (.var ⟨"count", t, .const "1" t, true, false⟩)⟩

theorem source_strict_counter :
    counter.source true = .ok "val count: Int = 1\n" ∧ counter.source false = .ok "val count: Int = 1\n" ∧
      (∀ v e, counter.Contains v e → e.isUnresolved = false) ∧
      counter.source true = counter.source false := by
  have htop : counter.topLevel =
      [.var ⟨"count", Language.kotlin.builtin .integer, .const "1" (Language.kotlin.builtin .integer), true, false⟩] := by
    show (Context.push _ _ _).declarations .global = _
    rw [Context.declarations_push, Context.declarations, Context.scope_empty]
    rfl
  have htext : counter.source true = .ok "val count: Int = 1\n" := by
    unfold source emit
    rw [htop]
    rfl
  have hplain : ∀ v e, counter.Contains v e → e.isUnresolved = false := by
    intro v e h
    suffices heq : e = .const "1" (Language.kotlin.builtin .integer) by rw [heq]; rfl
    induction h with
    | top hd hx =>
      rw [htop] at hd
      cases List.mem_singleton.mp hd
      cases List.mem_singleton.mp hx
      rfl
    | part _ hx ih =>
      rw [ih] at hx
      cases hx
  exact ⟨htext, source_strict.1 _ _ htext, hplain, source_strict.2 _ hplain⟩

end Program

end ProgramGen

import ProgramGen.Emit.Source
import ProgramGen.Proofs.Emit.JavaBrackets
import ProgramGen.Proofs.Emit.KotlinBrackets
import ProgramGen.Proofs.Run.Context

/-!
# Source text is well bracketed

The source text of a program closes every brace and every parenthesis that it opens, and none before it
has opened it, if its names and literals do: the emitters write brackets of their own in pairs, in either
language, with placeholders or without.
-/

namespace ProgramGen

open Emit

namespace Program

variable {q : BracketKind} {p : Program} {strict : Bool}

/-- What is written of a program leaves as many brackets open as there were. -/
theorem emit_shifts (hwords : ∀ w, p.Spells w → q.Paired w) : Shifts q 0 0 (p.emit strict) fun _ => True := by
  have hdecls : ∀ d ∈ p.topLevel, ∀ w ∈ d.words, q.Paired w := fun d hd w hw => hwords w (.decl hd hw)
  have hexprs : ∀ v e, p.Contains v e → ∀ w ∈ e.words, q.Paired w := fun v e he w hw => hwords w (.expr he hw)
  unfold emit
  split
  · exact Kotlin.declarations_bracketed hdecls
      (forall_places fun v e hc h => Kotlin.bracketed_of_places (hexprs v e hc) h)
  · exact Java.declarations_bracketed hdecls
      (forall_places fun v e hc h => Java.bracketed_of_places (hexprs v e hc) h)

/-- **Source text is well bracketed**, in braces and in parentheses each by itself, if the names and
literals of the program are. -/
theorem source_paired (q : BracketKind) (p : Program) (strict : Bool) {text : String}
    (hwords : ∀ w, p.Spells w → q.Paired w) (h : p.source strict = .ok text) : q.Paired text := by
  unfold source at h
  rcases hrun : (p.emit strict).runOn .blank with ⟨_ | a, page⟩
  · rw [hrun] at h
    cases h
  · rw [hrun] at h
    cases h
    obtain ⟨-, -, t, hout, ht⟩ := emit_shifts hwords .blank a page (by simp [Tidy, Page.blank]) hrun
    obtain rfl : page.out = t := hout.trans (String.empty_append ..)
    exact ht.paired

/-- A program of one variable, whose value is a text of brackets. -/
def quotation : Program :=
  let t := Language.java.stringType
  ⟨.java, Context.empty.push .global (.var ⟨"quotation", t, .const "\"(\x7b\x7d)\"" t, true, false⟩)⟩

theorem source_paired_quotation :
    (∀ w, quotation.Spells w → BracketKind.brace.Paired w) ∧ (∀ w, quotation.Spells w → BracketKind.paren.Paired w) ∧
      quotation.source true =
        .ok "class Main \x7b\n    static final String quotation = \"(\x7b\x7d)\";\n\x7d\n" ∧
      BracketKind.brace.Paired "class Main \x7b\n    static final String quotation = \"(\x7b\x7d)\";\n\x7d\n" ∧
      BracketKind.paren.Paired "class Main \x7b\n    static final String quotation = \"(\x7b\x7d)\";\n\x7d\n" := by
  have htop : quotation.topLevel = [.var ⟨"quotation", Language.java.stringType,
      .const "\"(\x7b\x7d)\"" Language.java.stringType, true, false⟩] := by
    show (Context.push _ _ _).declarations .global = _
    rw [Context.declarations_push, Context.declarations, Context.scope_empty]
    rfl
  have hcontains : ∀ v e, quotation.Contains v e → e = .const "\"(\x7b\x7d)\"" Language.java.stringType := by
    intro v e h
    induction h with
    | top hd hx =>
      rw [htop] at hd
      cases List.mem_singleton.mp hd
      cases List.mem_singleton.mp hx
      rfl
    | part _ hx ih =>
      rw [ih] at hx
      cases hx
  have hspells : ∀ w, quotation.Spells w → w ∈ ["quotation", "\"(\x7b\x7d)\"", "String"] := by
    intro w hw
    cases hw with
    | decl hd hw =>
      rw [htop] at hd
      cases List.mem_singleton.mp hd
      exact List.mem_cons.mpr ((List.mem_cons.mp hw).imp_right (List.mem_cons_of_mem _))
    | expr he hw =>
      rw [hcontains _ _ he] at hw
      exact List.mem_cons_of_mem _ hw
  have hscan : ∀ q : BracketKind, ∀ w ∈ ["quotation", "\"(\x7b\x7d)\"", "String"], q.scan w.toList 0 = some 0 := by
    intro q
    cases q <;> decide
  have hpaired : ∀ q : BracketKind, ∀ w, quotation.Spells w → q.Paired w := fun q w hw =>
    BracketKind.paired_iff_scan.mpr (hscan q w (hspells w hw))
  have htext : quotation.source true =
      .ok "class Main \x7b\n    static final String quotation = \"(\x7b\x7d)\";\n\x7d\n" := by
    unfold source emit
    rw [htop]
    rfl
  exact ⟨hpaired .brace, hpaired .paren, htext, source_paired .brace quotation true (hpaired .brace) htext,
    source_paired .paren quotation true (hpaired .paren) htext⟩

end Program

end ProgramGen

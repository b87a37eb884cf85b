import ProgramGen.Proofs.Emit.Brackets
import ProgramGen.Proofs.Emit.KotlinStrict

/-!
# Brackets in Kotlin

What is written of an expression is a text in which the brackets pair up if the texts of its parts
are, and what is written of a statement leaves as many brackets open as there were. A body opens a
brace on its first line and closes it on its last one.
-/

namespace ProgramGen

namespace Kotlin

open Emit BracketKind

variable {q : BracketKind} {k : Settings} {e : Expr} {b : Block} {d : Decl} {f : FuncDecl} {c : ClassDecl}
variable {l : LambdaDecl} {v : Visibility} {s : Stmt} {ss : List Stmt} {es : List Expr} {t : Ty}

/-! ## Types and headers -/

theorem appliedText_paired {c : TypeCtor} {args : List Ty} {texts : List String} (hname : q.Paired c.name)
    (htexts : ∀ s ∈ texts, q.Paired s) : q.Paired (appliedText c args texts) := by
  have hcommas := paired_commas htexts
  have hdrop := paired_commas fun s hs => htexts s (List.mem_of_mem_dropLast hs)
  unfold appliedText
  split
  · rename_i ret _ hret
    have hret := htexts ret (List.mem_of_getLast? hret)
    exact .of_scan fun n cs => by cases q <;> simp [hdrop, hret]
  · split
    · rename_i text _ _ _
      have htext := htexts text List.mem_cons_self
      split <;> exact .of_scan fun n cs => by cases q <;> simp [htext]
    · exact .of_scan fun n cs => by cases q <;> simp [hname, hcommas]

mutual

theorem typeText_paired : ∀ {t : Ty}, q.Spelled t → q.Paired (typeText t)
  | .builtin _ _ _ _ _, h => h _ List.mem_cons_self
  | .simple _ _, h => h _ List.mem_cons_self
  | .param _, h => h _ List.mem_cons_self
  | .wildcard _ none, _ => .of_scan fun n cs => by cases q <;> simp [typeText]
  | .wildcard .contravariant (some b), h => by
    have hb := typeText_paired (t := b) h
    exact .of_scan fun n cs => by cases q <;> simp [typeText, hb]
  | .wildcard .covariant (some b), h => by
    have hb := typeText_paired (t := b) h
    exact .of_scan fun n cs => by cases q <;> simp [typeText, hb]
  | .wildcard .invariant (some b), h => typeText_paired (t := b) h
  | .constructor c, h => by
    have hname : q.Paired c.name := h _ List.mem_cons_self
    have hstars : q.Paired (commas (c.params.map fun _ => "*")) := paired_commas fun s hs => by
      obtain ⟨-, -, rfl⟩ := List.mem_map.mp hs
      exact .of_scan fun n cs => by cases q <;> simp
    rw [typeText]
    generalize commas (c.params.map fun _ => "*") = stars at hstars
    exact .of_scan fun n cs => by cases q <;> simp [hname, hstars]
  | .applied _ args, h => appliedText_paired (h _ List.mem_cons_self) (typeTexts_paired (spelled_args h))

theorem typeTexts_paired : ∀ {ts : List Ty}, (∀ t ∈ ts, q.Spelled t) → ∀ s ∈ typeTexts ts, q.Paired s
  | [], _, _, hs => by cases hs
  | t :: ts, h, s, hs => by
    obtain ⟨ht, hts⟩ := List.forall_mem_cons.mp h
    rcases List.mem_cons.mp hs with rfl | hs
    · exact typeText_paired ht
    · exact typeTexts_paired hts s hs

end

theorem exactText_paired : ∀ {t : Ty}, q.Spelled t → q.Paired (exactText t)
  | .wildcard _ (some b), h => exactText_paired (t := b) h
  | .wildcard _ none, _ => .of_scan fun n cs => by cases q <;> simp [exactText]
  | .builtin .., h | .simple .., h | .param _, h | .constructor _, h | .applied .., h => typeText_paired h

theorem typeParamsText_paired {ps : List TypeParam} (h : ∀ w ∈ ps.flatMap TypeParam.words, q.Paired w) :
    q.Paired (typeParamsText ps) := by
  refine paired_inAngles fun s hs => ?_
  obtain ⟨p, hp, rfl⟩ := List.mem_map.mp hs
  have hwords : ∀ w ∈ p.words, q.Paired w := fun w hw => h w (List.mem_flatMap.mpr ⟨p, hp, hw⟩)
  have hmark := paired_mark (k := q) p.variance
  have hname : q.Paired p.name := hwords _ List.mem_cons_self
  unfold typeParamText
  split
  · rename_i b hb
    have hb := typeText_paired (q := q) (t := b) fun w hw => hwords w (List.mem_cons_of_mem _ (by simpa [hb] using hw))
    exact .of_scan fun n cs => by cases q <;> simp [hmark, hname, hb]
  · exact hmark.append hname

theorem typeArgsText_paired {ts : List Ty} (h : ∀ t ∈ ts, q.Spelled t) : q.Paired (typeArgsText ts) := by
  refine paired_inAngles fun s hs => ?_
  obtain ⟨t, ht, rfl⟩ := List.mem_map.mp hs
  exact exactText_paired (h t ht)

theorem funcModifiers_paired {owner : Option ClassKind} : q.Paired (funcModifiers f owner) := by
  unfold funcModifiers
  repeat' split
  all_goals exact .of_scan fun n cs => by cases q <;> simp

theorem funcHeader_paired {owner : Option ClassKind} {params : String} (h : ∀ w ∈ f.words, q.Paired w)
    (hparams : q.Paired params) : q.Paired (funcHeader f owner params) := by
  have hmodifiers : q.Paired (funcModifiers f owner) := funcModifiers_paired
  have hname : q.Paired f.name := h _ List.mem_cons_self
  have htypes : q.Paired (typeParamsText f.typeParams) := typeParamsText_paired fun w hw => h w (by
    simp only [FuncDecl.words, List.mem_cons, List.mem_append]
    exact .inr (.inr hw))
  have hret : q.Spelled f.ret := fun w hw => h w (by
    simp only [FuncDecl.words, List.mem_cons, List.mem_append]
    exact .inr (.inl (.inr hw)))
  have hret := typeText_paired hret
  unfold funcHeader
  extract_lets types types' ret
  have htypes' : q.Paired types' := paired_empty.ite (.of_scan fun n cs => by cases q <;> simp [types, htypes])
  have hret' : q.Paired ret := paired_empty.ite (.of_scan fun n cs => by cases q <;> simp [hret])
  exact .of_scan fun n cs => by cases q <;> simp [hmodifiers, htypes', hname, hparams, hret']

theorem fieldText_paired {isFinal : Bool} {f : FieldDecl} (h : ∀ w ∈ f.words, q.Paired w) :
    q.Paired (fieldText isFinal f) := by
  have hname : q.Paired f.name := h _ List.mem_cons_self
  have htype := typeText_paired (q := q) (t := f.ty) fun w hw => h w (List.mem_cons_of_mem _ hw)
  unfold fieldText
  extract_lets modifier keyword
  have hmodifier : q.Paired modifier :=
    Paired.ite (.of_scan fun n cs => by cases q <;> simp)
      (Paired.ite (.of_scan fun n cs => by cases q <;> simp) paired_empty)
  have hkeyword : q.Paired keyword :=
    Paired.ite (.of_scan fun n cs => by cases q <;> simp) (.of_scan fun n cs => by cases q <;> simp)
  exact .of_scan fun n cs => by cases q <;> simp [hmodifier, hkeyword, hname, htype]

theorem classKeyword_paired : q.Paired (classKeyword k c) := by
  unfold classKeyword
  split
  · exact Paired.ite (.of_scan fun n cs => by cases q <;> simp) (.of_scan fun n cs => by cases q <;> simp)
  · exact .of_scan fun n cs => by cases q <;> simp
  · exact Paired.ite (.of_scan fun n cs => by cases q <;> simp) (.of_scan fun n cs => by cases q <;> simp)

theorem classHeader_paired {supers : List String} (h : ∀ w ∈ c.words, q.Paired w)
    (hsupers : ∀ s ∈ supers, q.Paired s) : q.Paired (classHeader k c supers) := by
  have hname : q.Paired c.name := h _ List.mem_cons_self
  have htypes : q.Paired (typeParamsText c.typeParams) := typeParamsText_paired fun w hw => h w (by
    simp only [ClassDecl.words, List.mem_cons, List.mem_append]
    exact .inr (.inl (.inl (.inl hw))))
  have hfields : q.Paired (commas (c.fields.map (fieldText c.isFinal))) := paired_commas fun s hs => by
    obtain ⟨f, hf, rfl⟩ := List.mem_map.mp hs
    refine fieldText_paired fun w hw => h w ?_
    simp only [ClassDecl.words, List.mem_cons, List.mem_append]
    exact .inr (.inl (.inr (List.mem_flatMap.mpr ⟨f, hf, hw⟩)))
  have hkeyword := classKeyword_paired (q := q) (k := k) (c := c)
  have habove := paired_commas hsupers
  unfold classHeader
  extract_lets fields above
  have hfields' : q.Paired fields := paired_empty.ite (.of_scan fun n cs => by cases q <;> simp [hfields])
  have habove' : q.Paired above := paired_empty.ite (.of_scan fun n cs => by cases q <;> simp [habove])
  exact .of_scan fun n cs => by cases q <;> simp [hkeyword, hname, htypes, hfields', habove']

/-! ## Expressions in their places -/

/-- The brackets pair up in what is written of a statement, and in the text of the expression that it
may be. -/
structure BracketedStmt (q : BracketKind) (k : Settings) (s : Stmt) : Prop where
  stmt : Shifts q 0 0 (stmt k s) fun _ => True
  value : ∀ e, s = .expr e → Pairs q (expr k e)

/-- The brackets pair up in the names of an expression and in its text, and so with the statements of a
block. -/
structure Bracketed (q : BracketKind) (k : Settings) (e : Expr) : Prop where
  words : ∀ w ∈ e.words, q.Paired w
  value : Pairs q (expr k e)
  inner : ∀ b, e = .block b → ∀ s ∈ b.stmts, BracketedStmt q k s

theorem Bracketed.asReceiver (h : Bracketed q k e) : Pairs q (asReceiver k e (expr k e)) := by
  cases e with
  | unresolved t =>
    have ht := typeText_paired (q := q) (t := t) h.words
    show Pairs q (if k.strict then expr k (.unresolved t) else _)
    split
    · exact h.value
    · exact .pure (.of_scan fun n cs => by cases q <;> simp [ht])
  | lambda l => exact h.value.bind fun _ ha => .pure (.of_scan fun n cs => by cases q <;> simp [ha])
  | _ => exact h.value

theorem Bracketed.asBranch (h : Bracketed q k e) : Pairs q (asBranch e (expr k e)) := by
  cases e with
  | lambda l => exact h.value.bind fun _ ha => .pure (.of_scan fun n cs => by cases q <;> simp [ha])
  | _ => exact h.value

theorem arrayText_paired {values : String} (ht : q.Spelled t) (hvalues : q.Paired values) :
    q.Paired (arrayText t values) := by
  have htype := typeText_paired ht
  unfold arrayText
  split
  · exact .of_scan fun n cs => by cases q <;> simp [hvalues]
  · rename_i elem rest hargs
    have helem : q.Spelled elem := by
      cases t with
      | applied c args => exact spelled_args ht elem (by rw [show args = elem :: rest from hargs]; exact List.mem_cons_self)
      | _ => cases hargs
    have hexact := exactText_paired helem
    split
    · exact .of_scan fun n cs => by cases q <;> simp [hvalues, hexact]
    · split
      · exact .of_scan fun n cs => by cases q <;> simp [hvalues, htype]
      · exact .of_scan fun n cs => by cases q <;> simp [hvalues, hexact]

theorem lambdaHeader_paired {params : List (String × Ty)}
    (h : ∀ p ∈ params, q.Paired p.1 ∧ q.Spelled p.2) : q.Paired (lambdaHeader params) := by
  have hparams : q.Paired (commas (params.map fun p => p.1 ++ ": " ++ typeText p.2)) := by
    refine paired_commas fun s hs => ?_
    obtain ⟨p, hp, rfl⟩ := List.mem_map.mp hs
    obtain ⟨hname, htype⟩ := h p hp
    have htype := typeText_paired htype
    exact .of_scan fun n cs => by cases q <;> simp [hname, htype]
  unfold lambdaHeader
  exact paired_empty.ite (.of_scan fun n cs => by cases q <;> simp [hparams])

/-! ## Lists -/

theorem exprs_bracketed (h : ∀ e ∈ es, Bracketed q k e) : Shifts q 0 0 (exprs k es) fun ts => ∀ t ∈ ts, q.Paired t := by
  induction es with
  | nil =>
    rw [exprs]
    exact .pure (by simp)
  | cons e es ih =>
    obtain ⟨he, hes⟩ := List.forall_mem_cons.mp h
    rw [exprs]
    exact he.value.bind fun _ ha => (ih hes).bind fun _ hb => .pure (List.forall_mem_cons.mpr ⟨ha, hb⟩)

theorem stmts_bracketed (h : ∀ s ∈ ss, BracketedStmt q k s) : Shifts q 0 0 (stmts k ss) fun _ => True := by
  induction ss with
  | nil =>
    rw [stmts]
    exact .pure trivial
  | cons s ss ih =>
    obtain ⟨hs, hss⟩ := List.forall_mem_cons.mp h
    rw [stmts]
    exact hs.stmt.bind fun _ _ => ih hss

/-- The statements of a body, of which the last is the result if it has one. -/
theorem bodyStmts_bracketed {returns : Bool} (h : ∀ s ∈ ss, BracketedStmt q k s) :
    Shifts q 0 0 (bodyStmts k returns ss) fun _ => True := by
  induction ss with
  | nil =>
    rw [bodyStmts]
    exact .pure trivial
  | cons s ss ih =>
    obtain ⟨hs, hss⟩ := List.forall_mem_cons.mp h
    -- The last statement is a result if it is an expression; any other one is only a statement.
    by_cases hresult : (∃ e, s = .expr e) ∧ ss = []
    · obtain ⟨⟨e, rfl⟩, rfl⟩ := hresult
      rw [bodyStmts]
      refine (hs.value e rfl).bind fun _ ha => .line (Paired.moves ?_ 0)
      exact Paired.ite (.of_scan fun n cs => by cases q <;> simp [ha]) ha
    · rw [bodyStmts_cons fun e hs hss => hresult ⟨⟨e, hs⟩, hss⟩]
      exact hs.stmt.bind fun _ _ => ih hss

/-! ## Expressions -/

/-- The statements of a block in braces. -/
theorem bracedStmts {header : String} (hheader : q.Paired header) (h : ∀ s ∈ ss, BracketedStmt q k s) :
    Pairs q (Emit.braced header (stmts k ss)) :=
  .braced hheader (stmts_bracketed h)

theorem loop_bracketed {x : Loop} (hwords : ∀ w ∈ x.words, q.Paired w) (hhead : ∀ e ∈ x.head, Bracketed q k e)
    (hbody : ∀ s ∈ x.body.stmts, BracketedStmt q k s) : Pairs q (loop k x) := by
  cases x with
  | forEach var iterable body =>
    obtain ⟨ss, _⟩ := body
    have hvar : q.Paired var := hwords var List.mem_cons_self
    rw [loop]
    exact (hhead iterable (List.mem_singleton_self _)).value.bind fun _ hseq =>
      (bracedStmts paired_empty hbody).bind fun _ hbody =>
        .pure (.of_scan fun n cs => by cases q <;> simp [hvar, hseq, hbody])
  | forRange var start stop body =>
    obtain ⟨ss, _⟩ := body
    have hvar : q.Paired var := hwords var List.mem_cons_self
    obtain ⟨hstart, hstop⟩ := List.forall_mem_cons.mp hhead
    rw [loop]
    exact hstart.value.bind fun _ hfirst => (hstop stop (List.mem_singleton_self _)).value.bind fun _ hlast =>
      (bracedStmts paired_empty hbody).bind fun _ hbody =>
        .pure (.of_scan fun n cs => by cases q <;> simp [hvar, hfirst, hlast, hbody])
  | whileCond cond body bodyFirst =>
    obtain ⟨ss, _⟩ := body
    rw [loop]
    exact (hhead cond (List.mem_singleton_self _)).value.bind fun _ hcond =>
      (bracedStmts paired_empty hbody).bind fun _ hbody =>
        .pure (Paired.ite (.of_scan fun n cs => by cases q <;> simp [hcond, hbody])
          (.of_scan fun n cs => by cases q <;> simp [hcond, hbody]))

theorem Bracketed.branchText (h : Bracketed q k e) : Pairs q (branchText k e) := by
  cases e with
  | block b =>
    obtain ⟨ss, _⟩ := b
    exact bracedStmts paired_empty (h.inner _ rfl)
  | _ => exact h.asBranch

/-- The brackets pair up in a flat expression if they do in its names and parts. -/
theorem expr_bracketed (hflat : e.isFlat) (hwords : ∀ w ∈ e.words, q.Paired w)
    (h : ∀ a ∈ e.children, Bracketed q k a) : Pairs q (expr k e) := by
  cases e with
  | block _ | lambda _ | loop _ => cases hflat
  | unresolved t =>
    rw [expr]
    split
    · exact .throw
    · exact .pure (.of_scan fun n cs => by cases q <;> simp)
  | const literal t =>
    rw [expr]
    exact .pure (hwords literal List.mem_cons_self)
  | var name t =>
    rw [expr]
    exact .pure (hwords name List.mem_cons_self)
  | instanceOf var target t =>
    have hvar : q.Paired var := hwords var List.mem_cons_self
    have htarget := typeText_paired (q := q) (t := target) fun w hw =>
      hwords w (List.mem_cons_of_mem _ (List.mem_append_left _ hw))
    rw [expr]
    exact .pure (.of_scan fun n cs => by cases q <;> simp [hvar, htarget])
  | step name op =>
    rw [expr]
    exact .pure ((hwords name List.mem_cons_self).append (paired_step op))
  | conditional c t f ty =>
    simp only [Expr.children, List.forall_mem_cons] at h
    obtain ⟨hc, ht, hf, -⟩ := h
    rw [expr_conditional]
    exact hc.value.bind fun _ hcond => ht.branchText.bind fun _ htrue => hf.branchText.bind fun _ hfalse =>
      .pure (.of_scan fun n cs => by cases q <;> simp [hcond, htrue, hfalse])
  | logical op l r ty =>
    simp only [Expr.children, List.forall_mem_cons] at h
    obtain ⟨hl, hr, -⟩ := h
    rw [expr]
    exact .binary (paired_logical op) hl.value hr.value
  | equality op l r ty =>
    simp only [Expr.children, List.forall_mem_cons] at h
    obtain ⟨hl, hr, -⟩ := h
    rw [expr]
    exact .binary (paired_eq op) hl.value hr.value
  | comparison op l r ty =>
    simp only [Expr.children, List.forall_mem_cons] at h
    obtain ⟨hl, hr, -⟩ := h
    rw [expr]
    exact .binary (paired_cmp op) hl.value hr.value
  | arith op l r ty cast =>
    simp only [Expr.children, List.forall_mem_cons] at h
    obtain ⟨hl, hr, -⟩ := h
    have hname := paired_name (k := q) (t := ty) hwords
    rw [expr]
    exact (Shifts.binary (paired_arith op) hl.value hr.value).bind fun _ hvalue =>
      .pure (Paired.ite (.of_scan fun n cs => by cases q <;> simp [hvalue, hname]) hvalue)
  | new t args =>
    have htype := exactText_paired (q := q) (t := t) hwords
    rw [expr]
    refine (exprs_bracketed h).bind fun _ hargs => .pure ?_
    have hargs := paired_commas hargs
    exact .of_scan fun n cs => by cases q <;> simp [htype, hargs]
  | field r name t =>
    have hname : q.Paired name := hwords name List.mem_cons_self
    rw [expr]
    exact (h r (List.mem_singleton_self _)).asReceiver.bind fun _ hr =>
      .pure (.of_scan fun n cs => by cases q <;> simp [hr, hname])
  | call receiver name typeArgs args ret ofValue =>
    obtain ⟨hr, hargs⟩ := List.forall_mem_append.mp h
    have hname : q.Paired name := hwords name List.mem_cons_self
    have htypes : q.Paired (typeArgsText typeArgs) := typeArgsText_paired (spelled_of_flatMap fun w hw =>
      hwords w (List.mem_cons_of_mem _ (List.mem_append_left _ hw)))
    rw [expr]
    refine (exprs_bracketed hargs).bind fun args hargs => ?_
    have hargs := paired_commas hargs
    extract_lets call
    have hcall : q.Paired call := .of_scan fun n cs => by cases q <;> simp [call, hname, htypes, hargs]
    clear_value call
    cases receiver with
    | none => exact .pure hcall
    | some r =>
      exact (hr r (List.mem_singleton_self _)).asReceiver.bind fun _ hr =>
        .pure (.of_scan fun n cs => by cases q <;> simp [hr, hcall])
  | funcRef receiver name signature =>
    have hname : q.Paired name := hwords name List.mem_cons_self
    cases receiver with
    | none =>
      rw [expr]
      exact .pure (.of_scan fun n cs => by cases q <;> simp [hname])
    | some r =>
      rw [expr]
      exact (h r (List.mem_singleton_self _)).asReceiver.bind fun _ hr =>
        .pure (.of_scan fun n cs => by cases q <;> simp [hr, hname])
  | array t elems =>
    rw [expr]
    exact (exprs_bracketed h).bind fun _ helems => .pure (arrayText_paired hwords (paired_commas helems))
  | cast a t =>
    have htype := typeText_paired (q := q) (t := t) hwords
    rw [expr]
    exact (h a (List.mem_singleton_self _)).value.bind fun _ ha =>
      .pure (.of_scan fun n cs => by cases q <;> simp [ha, htype])
  | assign receiver name a =>
    obtain ⟨hr, ha⟩ := List.forall_mem_append.mp h
    have hname : q.Paired name := hwords name List.mem_cons_self
    rw [expr]
    refine (ha a (List.mem_singleton_self _)).value.bind fun _ ha => ?_
    cases receiver with
    | none => exact .pure (.of_scan fun n cs => by cases q <;> simp [hname, ha])
    | some r =>
      exact (hr r (List.mem_singleton_self _)).asReceiver.bind fun _ hr =>
        .pure (.of_scan fun n cs => by cases q <;> simp [hr, hname, ha])
  | stringLength a t =>
    rw [expr]
    exact (h a (List.mem_singleton_self _)).asReceiver.bind fun _ ha =>
      .pure (.of_scan fun n cs => by cases q <;> simp [ha])
  | print a =>
    rw [expr]
    exact (h a (List.mem_singleton_self _)).value.bind fun _ ha =>
      .pure (.of_scan fun n cs => by cases q <;> simp [ha])

theorem lambda_bracketed (hwords : ∀ w ∈ l.words, q.Paired w) (h : Bracketed q k l.body) : Pairs q (lambda k l) := by
  have hheader : q.Paired (lambdaHeader (l.params.map fun p => (p.name, p.ty))) := by
    refine lambdaHeader_paired fun p hp => ?_
    obtain ⟨x, hx, rfl⟩ := List.mem_map.mp hp
    have hx : ∀ w ∈ x.words, q.Paired w := fun w hw => hwords w (by
      simp only [LambdaDecl.words, List.mem_append]
      exact .inl (.inl (.inl (List.mem_flatMap.mpr ⟨x, hx, hw⟩))))
    exact ⟨hx _ List.mem_cons_self, fun w hw => hx w (List.mem_cons_of_mem _ hw)⟩
  have hsam : ∀ target ∈ l.samTarget, q.Spelled target := fun target ht w hw => hwords w (by
    simp only [LambdaDecl.words, List.mem_append]
    exact .inr (List.mem_flatMap.mpr ⟨target, Option.mem_toList.mpr ht, hw⟩))
  obtain ⟨_, params, ret, body, signature, sam⟩ := l
  unfold lambda
  extract_lets header done
  have hdone : ∀ text, q.Paired text → Pairs q (done text) := fun text htext => by
    refine .pure ?_
    cases sam with
    | none => exact htext
    | some target =>
      have htarget := typeText_paired (hsam target rfl)
      exact .of_scan fun n cs => by cases q <;> simp [htarget, htext]
  cases body with
  | block b =>
    obtain ⟨ss, _⟩ := b
    exact (bracedStmts hheader (h.inner _ rfl)).bind hdone
  | _ =>
    refine h.value.bind fun value hvalue => ?_
    exact hdone _ (.of_scan fun n cs => by cases q <;> simp [header, hheader, hvalue])

/-! ## Declarations -/

theorem params_bracketed {ps : List ParamDecl} (hwords : ∀ w ∈ ps.flatMap ParamDecl.words, q.Paired w)
    (h : ∀ e ∈ defaults ps, Bracketed q k e) : Shifts q 0 0 (params k ps) fun ts => ∀ t ∈ ts, q.Paired t := by
  induction ps with
  | nil =>
    rw [params]
    exact .pure (by simp)
  | cons p ps ih =>
    rw [List.flatMap_cons, List.forall_mem_append] at hwords
    have hname : q.Paired p.name := hwords.1 _ List.mem_cons_self
    have htype := typeText_paired (q := q) (t := p.ty) fun w hw => hwords.1 w (List.mem_cons_of_mem _ hw)
    obtain ⟨name, t, value⟩ := p
    unfold params
    extract_lets done
    have hdone : ∀ text, q.Paired text → (∀ e ∈ defaults ps, Bracketed q k e) →
        Shifts q 0 0 (done text) fun ts => ∀ t ∈ ts, q.Paired t := fun text htext hps =>
      (ih hwords.2 hps).bind fun _ hrest => .pure (List.forall_mem_cons.mpr
        ⟨.of_scan fun n cs => by cases q <;> simp [hname, htype, htext], hrest⟩)
    cases value with
    | none => exact hdone "" paired_empty h
    | some e =>
      obtain ⟨he, hps⟩ := List.forall_mem_cons.mp h
      exact he.value.bind fun _ ha => hdone _ (.of_scan fun n cs => by cases q <;> simp [ha]) hps

theorem assigned_paired {left right : String} (hl : q.Paired left) (hr : q.Paired right) :
    q.Paired (left ++ " = " ++ right) := .of_scan fun n cs => by cases q <;> simp [hl, hr]

theorem func_bracketed {owner : Option ClassKind} (hwords : ∀ w ∈ f.words, q.Paired w)
    (h : ∀ x ∈ f.places v, Bracketed q k x.2) : Shifts q 0 0 (func k owner f) fun _ => True := by
  have hps : ∀ w ∈ f.params.flatMap ParamDecl.words, q.Paired w := fun w hw => hwords w (by
    simp only [FuncDecl.words, List.mem_cons, List.mem_append]
    exact .inr (.inl (.inl hw)))
  have hparams : Shifts q 0 0 (params k f.params) fun ts => ∀ t ∈ ts, q.Paired t :=
    params_bracketed hps fun e he => h _ (FuncDecl.mem_places_of_default he)
  have hentry : ∀ s ∈ f.params.map fun p => p.name ++ ": Array<String>", q.Paired s := fun s hs => by
    obtain ⟨p, hp, rfl⟩ := List.mem_map.mp hs
    have hname : q.Paired p.name := hps _ (List.mem_flatMap.mpr ⟨p, hp, List.mem_cons_self⟩)
    exact .of_scan fun n cs => by cases q <;> simp [hname]
  have hbody : ∀ e, f.body = some e → Bracketed q k e := fun e he => by
    obtain ⟨w, hw⟩ := FuncDecl.exists_mem_places_of_body he
    exact h _ hw
  have hheader : ∀ ts : List String, (∀ t ∈ ts, q.Paired t) → q.Paired (funcHeader f owner (commas ts)) :=
    fun ts hts => funcHeader_paired hwords (paired_commas hts)
  obtain ⟨name, ps, ret, body, kind, typeParams, isFinal, isOverride⟩ := f
  unfold func
  extract_lets f done
  have hdone : ∀ ts, (∀ t ∈ ts, q.Paired t) → Shifts q 0 0 (done ts) fun _ => True := by
    intro ts hts
    have hheader := hheader ts hts
    cases body with
    | none => exact .line (hheader.moves 0)
    | some e =>
      have he := hbody e rfl
      cases e with
      | block b =>
        obtain ⟨ss, _⟩ := b
        exact .enclosed (header_moves hheader) footer_moves (bodyStmts_bracketed (he.inner _ rfl))
      | _ =>
        exact he.value.bind fun _ hvalue => .line ((assigned_paired hheader hvalue).moves 0)
  split
  · exact (Shifts.pure hentry).bind hdone
  · exact hparams.bind hdone

theorem funcs_bracketed {owner : ClassKind} {fs : List FuncDecl} (hwords : ∀ f ∈ fs, ∀ w ∈ f.words, q.Paired w)
    (h : ∀ f ∈ fs, ∀ x ∈ f.places v, Bracketed q k x.2) : Shifts q 0 0 (funcs k owner fs) fun _ => True := by
  induction fs with
  | nil =>
    rw [funcs]
    exact .pure trivial
  | cons f fs ih =>
    obtain ⟨hf, hfs⟩ := List.forall_mem_cons.mp h
    obtain ⟨hwf, hwfs⟩ := List.forall_mem_cons.mp hwords
    rw [funcs]
    exact Shifts.blank.bind fun _ _ => (func_bracketed hwf hf).bind fun _ _ => ih hwfs hfs

theorem supers_bracketed {above : List SuperDecl} (hwords : ∀ a ∈ above, q.Spelled a.ty)
    (h : ∀ a ∈ above, ∀ e ∈ a.args.getD [], Bracketed q k e) :
    Shifts q 0 0 (supers k above) fun ts => ∀ t ∈ ts, q.Paired t := by
  induction above with
  | nil =>
    rw [supers]
    exact .pure (by simp)
  | cons a above ih =>
    obtain ⟨ha, habove⟩ := List.forall_mem_cons.mp h
    obtain ⟨hwa, hwabove⟩ := List.forall_mem_cons.mp hwords
    have htype := typeText_paired hwa
    have hrest := ih hwabove habove
    obtain ⟨t, args⟩ := a
    unfold supers
    extract_lets done
    have hdone : ∀ text, q.Paired text → Shifts q 0 0 (done text) fun ts => ∀ t ∈ ts, q.Paired t :=
      fun text htext => hrest.bind fun _ hts => .pure (List.forall_mem_cons.mpr ⟨htype.append htext, hts⟩)
    cases args with
    | none => exact hdone "" paired_empty
    | some es =>
      refine (exprs_bracketed ha).bind fun _ hargs => hdone _ ?_
      have hargs := paired_commas hargs
      exact .of_scan fun n cs => by cases q <;> simp [hargs]

theorem cls_bracketed (hwords : ∀ w ∈ c.words, q.Paired w) (hsupers : ∀ e ∈ c.superArgs, Bracketed q k e)
    (hfuncs : ∀ f ∈ c.funcs, ∀ x ∈ f.places v, Bracketed q k x.2) : Shifts q 0 0 (cls k c) fun _ => True := by
  have habove : Shifts q 0 0 (supers k c.supers) fun ts => ∀ t ∈ ts, q.Paired t := by
    refine supers_bracketed (fun a ha w hw => hwords w ?_) fun a ha e he =>
      hsupers e (List.mem_flatMap.mpr ⟨a, ha, he⟩)
    simp only [ClassDecl.words, List.mem_cons, List.mem_append]
    exact .inr (.inl (.inl (.inr (List.mem_flatMap.mpr ⟨a, ha, hw⟩))))
  have hwfuncs : ∀ f ∈ c.funcs, ∀ w ∈ f.words, q.Paired w := fun f hf w hw => hwords w (by
    simp only [ClassDecl.words, List.mem_cons, List.mem_append]
    exact .inr (.inr (List.mem_flatMap.mpr ⟨f, hf, hw⟩)))
  have hheader : ∀ ts : List String, (∀ t ∈ ts, q.Paired t) → q.Paired (classHeader k c ts) :=
    fun _ => classHeader_paired hwords
  obtain ⟨name, kind, typeParams, above, fields, members, isFinal⟩ := c
  unfold cls
  refine habove.bind fun ts hts => ?_
  have hheader := hheader ts hts
  cases members with
  | nil => exact .line (hheader.moves 0)
  | cons f fs =>
    obtain ⟨hf, hfs⟩ := List.forall_mem_cons.mp hfuncs
    obtain ⟨hwf, hwfs⟩ := List.forall_mem_cons.mp hwfuncs
    exact .enclosed (header_moves hheader) footer_moves
      ((func_bracketed hwf hf).bind fun _ _ => funcs_bracketed hwfs hfs)

theorem decl_bracketed (hwords : ∀ w ∈ d.words, q.Paired w) (h : ∀ x ∈ d.places v, Bracketed q k x.2) :
    Shifts q 0 0 (decl k d) fun _ => True := by
  cases d with
  | var x =>
    have hname : q.Paired x.name := hwords _ List.mem_cons_self
    have htype := typeText_paired (q := q) (t := x.ty) fun w hw => hwords w (List.mem_cons_of_mem _ hw)
    obtain ⟨name, t, init, isFinal, inferred⟩ := x
    rw [decl]
    refine (h _ (List.mem_singleton_self _)).value.bind fun value hvalue =>
      .line ((assigned_paired ?_ hvalue).moves 0)
    have hmark : q.Paired (if inferred then "" else ": " ++ typeText t) :=
      paired_empty.ite (.of_scan fun n cs => by cases q <;> simp [htype])
    have hkeyword : q.Paired (if isFinal then "val " else "var ") :=
      Paired.ite (.of_scan fun n cs => by cases q <;> simp) (.of_scan fun n cs => by cases q <;> simp)
    exact (hkeyword.append hname).append hmark
  | func f =>
    rw [decl]
    exact func_bracketed hwords h
  | cls c =>
    rw [decl]
    obtain ⟨hsupers, hfuncs⟩ := List.forall_mem_append.mp h
    exact cls_bracketed hwords (fun e he => hsupers (v, e) (List.mem_map_of_mem he)) fun f hf x hx =>
      hfuncs x (List.mem_flatMap.mpr ⟨f, hf, hx⟩)
  | param _ | field _ | lambda _ =>
    rw [decl]
    exact .pure trivial

/-- The brackets pair up in the statements of a block if they do in its names and in what stands in it. -/
theorem bracketedStmt_of_places (hwords : ∀ w ∈ b.words, q.Paired w) (h : ∀ x ∈ b.places v, Bracketed q k x.2) :
    ∀ s ∈ b.stmts, BracketedStmt q k s := by
  intro s hs
  cases s with
  | decl d =>
    refine ⟨?_, fun e he => by cases he⟩
    rw [stmt]
    exact decl_bracketed (fun w hw => hwords w (List.mem_flatMap.mpr ⟨_, hs, hw⟩)) fun x hx =>
      h x (List.mem_flatMap.mpr ⟨_, hs, hx⟩)
  | expr e =>
    have he : Bracketed q k e := h (_, e) (List.mem_flatMap.mpr ⟨_, hs, List.mem_singleton_self _⟩)
    refine ⟨?_, fun a ha => ?_⟩
    · rw [stmt]
      exact he.value.bind fun _ ha => .line (ha.moves 0)
    · cases ha
      exact he.value

/-- **The brackets pair up in an expression if they do in its names and in what stands in it.** -/
theorem bracketed_of_places (hwords : ∀ w ∈ e.words, q.Paired w) (h : ∀ x ∈ e.places v, Bracketed q k x.2) :
    Bracketed q k e := by
  by_cases hflat : e.isFlat
  · rw [Expr.places_of_isFlat hflat] at h
    refine ⟨hwords, expr_bracketed hflat hwords fun a ha => h (v, a) (List.mem_map_of_mem ha), ?_⟩
    rintro b rfl
    cases hflat
  · cases e with
    | block b =>
      have hinner := bracketedStmt_of_places hwords h
      obtain ⟨ss, _⟩ := b
      refine ⟨hwords, ?_, fun b hb => ?_⟩
      · rw [expr]
        exact (bracedStmts paired_empty hinner).bind fun _ ha =>
          .pure (.of_scan fun n cs => by cases q <;> simp [ha])
      · cases hb
        exact hinner
    | lambda l =>
      have hbody : Bracketed q k l.body := h (_, l.body) (List.mem_append_right _ (List.mem_singleton_self _))
      refine ⟨hwords, ?_, fun b hb => by cases hb⟩
      rw [expr]
      exact lambda_bracketed hwords hbody
    | loop x =>
      rw [show (Expr.loop x).places v = _ from x.places_eq v] at h
      obtain ⟨hhead, hbody⟩ := List.forall_mem_append.mp h
      have hinner : ∀ w ∈ x.body.words, q.Paired w := fun w hw => hwords w (by
        cases x with
        | forEach y iterable body | forRange y start stop body => exact List.mem_cons_of_mem _ hw
        | whileCond cond body bodyFirst => exact hw)
      refine ⟨hwords, ?_, fun b hb => by cases hb⟩
      rw [expr]
      exact loop_bracketed hwords (fun a ha => hhead (v, a) (List.mem_map_of_mem ha))
        (bracketedStmt_of_places hinner hbody)
    | _ => exact absurd rfl hflat

/-- The brackets of a program pair up if they do in its names and in what stands in its declarations. -/
theorem declarations_bracketed {ds : List Decl} (hwords : ∀ d ∈ ds, ∀ w ∈ d.words, q.Paired w)
    (h : ∀ d ∈ ds, ∀ x ∈ d.places v, Bracketed q k x.2) :
    Shifts q 0 0 (declarations k ds) fun _ => True :=
  .forM fun d hd => Shifts.blank.bind fun _ _ =>
    decl_bracketed (hwords d (List.mem_of_mem_filter hd)) (h d (List.mem_of_mem_filter hd))

end Kotlin

end ProgramGen

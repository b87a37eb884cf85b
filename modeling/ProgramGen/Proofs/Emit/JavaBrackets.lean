import ProgramGen.Proofs.Emit.JavaTexts
import ProgramGen.Proofs.Program.Places

/-!
# Brackets in Java

What is written of an expression is a text in which the brackets pair up; as a statement, it leaves as
many brackets open as there were. The type of the elements that a loop runs through is written too, so
the types of expressions are kept track of with their texts.
-/

namespace ProgramGen

namespace Java

open Emit BracketKind

variable {q : BracketKind} {strict : Bool} {e : Expr} {b : Block} {d : Decl} {f : FuncDecl} {c : ClassDecl}
variable {l : LambdaDecl} {v : Visibility} {s : Stmt} {ss : List Stmt} {es : List Expr} {t : Ty}

/-- The brackets pair up in what is written of a statement; and of the expression that it may be, in its
text as a value, in what it is as a statement, and in the names of its type. -/
structure BracketedStmt (q : BracketKind) (strict : Bool) (s : Stmt) : Prop where
  stmt : Shifts q 0 0 (stmt strict s) fun _ => True
  inner : ∀ e, s = .expr e → Pairs q (expr strict e) ∧
    Shifts q 0 0 (exprStmt strict (expr strict e) e) (fun _ => True) ∧ ∀ t, e.ty? = some t → q.Spelled t

/-- The brackets pair up in the names of an expression and of its type, in its text as a value, and in
what it is as a statement, and so with the statements of a block. -/
structure Bracketed (q : BracketKind) (strict : Bool) (e : Expr) : Prop where
  words : ∀ w ∈ e.words, q.Paired w
  type : ∀ t, e.ty? = some t → q.Spelled t
  value : Pairs q (expr strict e)
  stmt : Shifts q 0 0 (exprStmt strict (expr strict e) e) fun _ => True
  inner : ∀ b, e = .block b → ∀ s ∈ b.stmts, BracketedStmt q strict s

/-! ## Lists -/

theorem exprs_bracketed (h : ∀ e ∈ es, Bracketed q strict e) :
    Shifts q 0 0 (exprs strict es) fun ts => ∀ t ∈ ts, q.Paired t := by
  induction es with
  | nil =>
    rw [exprs]
    exact .pure (by simp)
  | cons e es ih =>
    obtain ⟨he, hes⟩ := List.forall_mem_cons.mp h
    rw [exprs]
    exact he.value.bind fun _ ha => (ih hes).bind fun _ hb => .pure (List.forall_mem_cons.mpr ⟨ha, hb⟩)

theorem stmts_bracketed (h : ∀ s ∈ ss, BracketedStmt q strict s) : Shifts q 0 0 (stmts strict ss) fun _ => True := by
  induction ss with
  | nil =>
    rw [stmts]
    exact .pure trivial
  | cons s ss ih =>
    obtain ⟨hs, hss⟩ := List.forall_mem_cons.mp h
    rw [stmts]
    exact hs.stmt.bind fun _ _ => ih hss

theorem returned_paired {text : String} (h : q.Paired text) : q.Moves 0 0 ("return " ++ text ++ ";") :=
  Paired.moves (.of_scan fun n cs => by cases q <;> simp [h]) 0

theorem returnNull_moves : q.Moves 0 0 "return null;" :=
  Paired.moves (.of_scan fun n cs => by cases q <;> simp) 0

/-- The statements of a body, of which the last is the result if it has one. -/
theorem bodyStmts_bracketed {returns : Bool} (h : ∀ s ∈ ss, BracketedStmt q strict s) :
    Shifts q 0 0 (bodyStmts strict returns ss) fun _ => True := by
  induction ss with
  | nil =>
    rw [bodyStmts]
    exact .pure trivial
  | cons s ss ih =>
    obtain ⟨hs, hss⟩ := List.forall_mem_cons.mp h
    -- The last statement is a result if it is an expression; any other one is only a statement.
    by_cases hresult : (∃ e, s = .expr e) ∧ ss = []
    · obtain ⟨⟨e, rfl⟩, rfl⟩ := hresult
      obtain ⟨hvalue, hstmt, -⟩ := hs.inner e rfl
      rw [bodyStmts]
      split
      · exact hvalue.bind fun _ ha => .line (returned_paired ha)
      · exact hstmt
    · rw [bodyStmts_cons fun e hs hss => hresult ⟨⟨e, hs⟩, hss⟩]
      exact hs.stmt.bind fun _ _ => ih hss

/-! ## Expressions -/

theorem loop_bracketed {x : Loop} (hwords : ∀ w ∈ x.words, q.Paired w)
    (hhead : ∀ e ∈ x.head, Bracketed q strict e) (hbody : ∀ s ∈ x.body.stmts, BracketedStmt q strict s) :
    Shifts q 0 0 (loop strict x) fun _ => True := by
  cases x with
  | forEach var iterable body =>
    obtain ⟨ss, _⟩ := body
    have hvar : q.Paired var := hwords var List.mem_cons_self
    have hiterable := hhead iterable (List.mem_singleton_self _)
    have helem : q.Spelled ((iterable.ty?.bind fun t => t.args.head?).getD Language.java.anyType) := by
      cases ht : iterable.ty? with
      | none => exact anyType_spelled
      | some t => exact headArg_spelled (hiterable.type t ht)
    rw [loop]
    exact (exactType_paired helem).bind fun _ hname => hiterable.value.bind fun _ hseq =>
      (Shifts.braced paired_empty (stmts_bracketed hbody)).bind fun _ hbody =>
        .line (Paired.moves (.of_scan fun n cs => by cases q <;> simp [hname, hvar, hseq, hbody]) 0)
  | forRange var start stop body =>
    obtain ⟨ss, _⟩ := body
    have hvar : q.Paired var := hwords var List.mem_cons_self
    obtain ⟨hstart, hstop⟩ := List.forall_mem_cons.mp hhead
    rw [loop]
    exact hstart.value.bind fun _ hfirst => (hstop stop (List.mem_singleton_self _)).value.bind fun _ hlast =>
      (Shifts.braced paired_empty (stmts_bracketed hbody)).bind fun _ hbody =>
        .line (Paired.moves (.of_scan fun n cs => by cases q <;> simp [hvar, hfirst, hlast, hbody]) 0)
  | whileCond cond body bodyFirst =>
    obtain ⟨ss, _⟩ := body
    rw [loop]
    exact (hhead cond (List.mem_singleton_self _)).value.bind fun _ hcond =>
      (Shifts.braced paired_empty (stmts_bracketed hbody)).bind fun _ hbody =>
        .line (Paired.moves (Paired.ite (.of_scan fun n cs => by cases q <;> simp [hcond, hbody])
          (.of_scan fun n cs => by cases q <;> simp [hcond, hbody])) 0)

/-- The brackets pair up in a flat expression as a value if they do in its names and parts. -/
theorem expr_bracketed (hflat : e.isFlat) (hwords : ∀ w ∈ e.words, q.Paired w)
    (h : ∀ a ∈ e.children, Bracketed q strict a) : Pairs q (expr strict e) := by
  cases e with
  | block _ | lambda _ | loop _ => cases hflat
  | unresolved t =>
    rw [expr]
    split
    · exact (type_paired (t := t) hwords).bind fun _ _ => .throw
    · exact (exactType_paired (t := t) hwords).bind fun _ ht =>
        .pure (.of_scan fun n cs => by cases q <;> simp [ht])
  | const literal t =>
    rw [expr]
    exact .pure (hwords literal List.mem_cons_self)
  | var name t =>
    rw [expr]
    exact variableText_paired (hwords name List.mem_cons_self)
  | instanceOf var target t =>
    have hvar : q.Paired var := hwords var List.mem_cons_self
    have htarget : q.Spelled target := fun w hw => hwords w (List.mem_cons_of_mem _ (List.mem_append_left _ hw))
    rw [expr]
    exact (rawType_paired htarget).bind fun _ hraw => .pure (.of_scan fun n cs => by cases q <;> simp [hvar, hraw])
  | step name op =>
    rw [expr]
    exact .pure ((hwords name List.mem_cons_self).append (paired_step op))
  | conditional c t f ty =>
    simp only [Expr.children, List.forall_mem_cons] at h
    obtain ⟨hc, ht, hf, -⟩ := h
    rw [expr]
    exact hc.value.bind fun _ hcond => (narrowed_shifts hc.words ht.value).bind fun _ htrue =>
      hf.value.bind fun _ hfalse => .pure (.of_scan fun n cs => by cases q <;> simp [hcond, htrue, hfalse])
  | logical op l r ty =>
    simp only [Expr.children, List.forall_mem_cons] at h
    obtain ⟨hl, hr, -⟩ := h
    rw [expr]
    exact .binary (paired_logical op) hl.value hr.value
  | equality op l r ty =>
    simp only [Expr.children, List.forall_mem_cons] at h
    obtain ⟨hl, hr, -⟩ := h
    rw [expr]
    exact .binary (paired_eq op) hl.value hr.value
  | comparison op l r ty =>
    simp only [Expr.children, List.forall_mem_cons] at h
    obtain ⟨hl, hr, -⟩ := h
    rw [expr]
    exact .binary (paired_cmp op) hl.value hr.value
  | arith op l r ty cast =>
    simp only [Expr.children, List.forall_mem_cons] at h
    obtain ⟨hl, hr, -⟩ := h
    rw [expr]
    refine (Shifts.binary (paired_arith op) hl.value hr.value).bind fun value hvalue => .pure ?_
    split
    · rename_i name hname
      obtain ⟨k, -, hk⟩ := Option.bind_eq_some_iff.mp hname
      have hname := primitiveName_paired (q := q) hk
      exact .of_scan fun n cs => by cases q <;> simp [hvalue, hname]
    · exact hvalue
  | new t args =>
    rw [expr]
    refine (exactType_paired (t := t) hwords).bind fun _ ht => (exprs_bracketed h).bind fun _ hargs => .pure ?_
    have hargs := paired_commas hargs
    exact .of_scan fun n cs => by cases q <;> simp [ht, hargs]
  | field r name t =>
    have hname : q.Paired name := hwords name List.mem_cons_self
    rw [expr]
    exact (h r (List.mem_singleton_self _)).value.bind fun _ hr =>
      .pure (.of_scan fun n cs => by cases q <;> simp [hr, hname])
  | call receiver name typeArgs args ret ofValue =>
    obtain ⟨hr, hargs⟩ := List.forall_mem_append.mp h
    have hname : q.Paired name := hwords name List.mem_cons_self
    have htypes : ∀ t ∈ typeArgs, q.Spelled t := spelled_of_flatMap fun w hw =>
      hwords w (List.mem_cons_of_mem _ (List.mem_append_left _ hw))
    rw [expr]
    refine (exprs_bracketed hargs).bind fun args hargs => ?_
    have hargs := paired_commas hargs
    cases ofValue with
    | true =>
      exact (variableText_paired hname).bind fun _ hvar =>
        .pure (.of_scan fun n cs => by cases q <;> simp [hvar, hargs])
    | false =>
      refine (callTypeArgs_paired htypes).bind fun _ htypes => ?_
      cases receiver with
      | none =>
        have hmain := mainClass_paired (q := q)
        exact .pure (.of_scan fun n cs => by cases q <;> simp [hmain, htypes, hname, hargs])
      | some r =>
        have hr := hr r (List.mem_singleton_self _)
        exact (asReceiver_paired hr.words hr.value).bind fun _ hr =>
          .pure (.of_scan fun n cs => by cases q <;> simp [hr, htypes, hname, hargs])
  | funcRef receiver name signature =>
    have hname : q.Paired name := hwords name List.mem_cons_self
    have hsignature : q.Spelled signature := fun w hw => hwords w (List.mem_cons_of_mem _ hw)
    cases receiver with
    | none =>
      rw [expr]
      exact funcRefText_paired mainClass_paired hname hsignature
    | some r =>
      have hr := h r (List.mem_singleton_self _)
      rw [expr]
      exact (asReceiver_paired hr.words hr.value).bind fun _ hr => funcRefText_paired hr hname hsignature
  | array t elems =>
    rw [expr]
    exact (exprs_bracketed h).bind fun _ helems => arrayText_paired hwords helems
  | cast a t =>
    rw [expr]
    exact (type_paired (t := t) hwords).bind fun _ ht => (h a (List.mem_singleton_self _)).value.bind fun _ ha =>
      .pure (.of_scan fun n cs => by cases q <;> simp [ha, ht])
  | assign receiver name a =>
    obtain ⟨hr, ha⟩ := List.forall_mem_append.mp h
    have hname : q.Paired name := hwords name List.mem_cons_self
    rw [expr]
    refine (ha a (List.mem_singleton_self _)).value.bind fun _ ha => ?_
    cases receiver with
    | none => exact .pure (.of_scan fun n cs => by cases q <;> simp [hname, ha])
    | some r =>
      exact (hr r (List.mem_singleton_self _)).value.bind fun _ hr =>
        .pure (.of_scan fun n cs => by cases q <;> simp [hr, hname, ha])
  | stringLength a t =>
    rw [expr]
    exact (h a (List.mem_singleton_self _)).value.bind fun _ ha =>
      .pure (.of_scan fun n cs => by cases q <;> simp [ha])
  | print a =>
    rw [expr]
    exact (h a (List.mem_singleton_self _)).value.bind fun _ ha =>
      .pure (.of_scan fun n cs => by cases q <;> simp [ha])

/-- What is no statement in Java is the argument of a call. -/
theorem discarded_moves {text : String} (h : q.Paired text) :
    q.Moves 0 0 ("java.util.Objects.hashCode(" ++ text ++ ");") :=
  Paired.moves (.of_scan fun n cs => by cases q <;> simp [h]) 0

theorem statement_moves {text : String} (h : q.Paired text) : q.Moves 0 0 (text ++ ";") :=
  Paired.moves (.of_scan fun n cs => by cases q <;> simp [h]) 0

/-- An expression that is no conditional, block, loop or placeholder is written as a value. -/
theorem exprStmt_of_value (h : Pairs q (expr strict e)) :
    Shifts q 0 0 (do
      let text ← expr strict e
      Emit.line (if isStatement e then text ++ ";" else "java.util.Objects.hashCode(" ++ text ++ ");"))
      fun _ => True :=
  h.bind fun text htext => .line (by
    split
    · exact statement_moves htext
    · exact discarded_moves htext)

/-- The brackets pair up in a flat expression as a statement if they do in it as a value, and in its
parts. -/
theorem exprStmt_bracketed (hflat : e.isFlat) (hvalue : Pairs q (expr strict e))
    (h : ∀ a ∈ e.children, Bracketed q strict a) :
    Shifts q 0 0 (exprStmt strict (expr strict e) e) fun _ => True := by
  cases e with
  | block _ | loop _ => cases hflat
  | conditional c t f ty =>
    simp only [Expr.children, List.forall_mem_cons] at h
    obtain ⟨hc, ht, hf, -⟩ := h
    -- The branches stand inside a brace that is open from the first line to the last.
    have helse : q.Moves q.inBraces q.inBraces "\x7d else \x7b" := fun n cs => by cases q <;> simp
    rw [exprStmt]
    refine hc.value.bind fun cond hcond => ?_
    have hfirst : q.Moves 0 q.inBraces ("if (" ++ cond ++ ") \x7b") := fun n cs => by cases q <;> simp [hcond]
    exact (Shifts.line hfirst).bind fun _ _ =>
      ((narrowed_shifts hc.words ht.stmt).inside q.inBraces).indented.bind fun _ _ =>
      (Shifts.line helse).bind fun _ _ => (hf.stmt.inside q.inBraces).indented.bind fun _ _ =>
      .line footer_moves
  | unresolved t =>
    rw [exprStmt]
    split
    · split
      · exact .throw
      · exact .pure trivial
    · exact hvalue.bind fun _ ha => .line (discarded_moves ha)
  | _ =>
    unfold exprStmt
    exact exprStmt_of_value hvalue

theorem lambda_bracketed (hwords : ∀ w ∈ l.words, q.Paired w) (h : Bracketed q strict l.body) :
    Pairs q (lambda strict l) := by
  have hparams : ∀ p ∈ l.params.map fun p => (p.name, p.ty), q.Paired p.1 ∧ q.Spelled p.2 :=
    params_words fun w hw => hwords w (List.mem_append_left _ (List.mem_append_left _ (List.mem_append_left _ hw)))
  obtain ⟨_, params, ret, body, signature, sam⟩ := l
  unfold lambda
  refine (paramList_paired hparams).bind fun ps hps => ?_
  -- The lines of a body stand on a page of their own, between the braces of the closure.
  have hclosure : ∀ {body : Emit Unit}, Shifts q 0 0 body (fun _ => True) →
      Pairs q (do
        let text ← Emit.detached body
        return "(" ++ ps ++ ") -> \x7b\n" ++ text ++ (← Emit.pad) ++ "\x7d") := fun hbody =>
    hbody.detached.bind fun _ htext => Shifts.pad.bind fun _ hpad =>
      .pure (.of_scan fun n cs => by cases q <;> simp [hps, htext, hpad])
  have hnull : ∀ {c : Prop} [Decidable c], Shifts q 0 0 (if c then Emit.line "return null;" else pure ()) fun _ => True := by
    intro c _
    split
    · exact .line returnNull_moves
    · exact .pure trivial
  extract_lets text
  have htext : ∀ u, Pairs q (text u) := by
    intro u
    cases body with
    | block b =>
      obtain ⟨ss, _⟩ := b
      have hbody : Shifts q 0 0 (bodyStmts strict (!ret.isVoid) ss) fun _ => True := bodyStmts_bracketed (h.inner _ rfl)
      exact hclosure (hbody.bind fun _ _ => hnull)
    | _ =>
      unfold text
      dsimp only
      split
      · exact hclosure (h.stmt.bind fun _ _ => hnull)
      · exact h.value.bind fun _ hvalue => .pure (.of_scan fun n cs => by cases q <;> simp [hps, hvalue])
  split
  · exact useArities_shifts.bind fun u _ => htext u
  · exact htext ()

/-! ## Declarations -/

/-- The brackets pair up in the body of a function if they do in what stands in the function. -/
theorem bracketed_body (h : ∀ x ∈ f.places v, Bracketed q strict x.2) (he : f.body = some e) :
    Bracketed q strict e := by
  obtain ⟨w, hw⟩ := FuncDecl.exists_mem_places_of_body he
  exact h _ hw

theorem nestedFunc_bracketed (hwords : ∀ w ∈ f.words, q.Paired w) (h : ∀ x ∈ f.places v, Bracketed q strict x.2) :
    Shifts q 0 0 (nestedFunc strict f) fun _ => True := by
  have hbody : ∀ e, f.body = some e → Bracketed q strict e := fun e => bracketed_body h
  obtain ⟨hname, hparams, hret, -⟩ := headerNames hwords
  have hparams := params_words hparams
  obtain ⟨name, params, ret, body, _, _, _, _⟩ := f
  unfold nestedFunc
  refine useArities_shifts.bind fun _ _ => ?_
  have htypes : ∀ t ∈ params.map (·.ty) ++ [ret], q.Spelled t := by
    refine List.forall_mem_append.mpr ⟨fun t ht => ?_, fun t ht => List.mem_singleton.mp ht ▸ hret⟩
    obtain ⟨p, hp, rfl⟩ := List.mem_map.mp ht
    exact (hparams (p.name, p.ty) (List.mem_map_of_mem hp)).2
  refine (Shifts.mapM fun t ht => typeArg_paired (htypes t ht)).bind fun args hargs => ?_
  refine (paramList_paired hparams).bind fun named hnamed => ?_
  have hargs := paired_commas hargs
  have harity := paired_toString (k := q) params.length
  generalize toString params.length = arity at harity
  have hfirst : q.Moves 0 q.inBraces ("final Function" ++ arity ++ "<" ++ commas args ++ "> " ++ name ++
      " = (" ++ named ++ ") -> \x7b") := fun n cs => by
    cases q <;> simp [harity, hargs, show Paired _ name from hname, hnamed]
  have hlast : q.Moves q.inBraces 0 "\x7d;" := fun n cs => by cases q <;> simp
  refine .enclosed hfirst hlast ?_
  cases body with
  | none => exact .throw
  | some e =>
    have he := hbody e rfl
    cases e with
    | block b =>
      obtain ⟨ss, _⟩ := b
      refine (bodyStmts_bracketed (he.inner _ rfl)).bind fun _ _ => ?_
      split
      · exact .line returnNull_moves
      · exact .pure trivial
    | _ =>
      dsimp only
      split
      · exact he.stmt.bind fun _ _ => .line returnNull_moves
      · exact he.value.bind fun _ ha => .line (returned_paired ha)

theorem method_bracketed {owner : Option ClassKind} (hwords : ∀ w ∈ f.words, q.Paired w)
    (h : ∀ x ∈ f.places v, Bracketed q strict x.2) : Shifts q 0 0 (method strict owner f) fun _ => True := by
  have hbody : ∀ e, f.body = some e → Bracketed q strict e := fun e => bracketed_body h
  have hmethod : Pairs q (methodHeader f owner) := methodHeader_paired (headerNames hwords)
  obtain ⟨name, params, ret, body, _, _, _, _⟩ := f
  unfold method
  refine hmethod.bind fun header hheader => ?_
  cases body with
  | none => exact .line (statement_moves hheader)
  | some e =>
    have he := hbody e rfl
    cases e with
    | block b =>
      obtain ⟨ss, _⟩ := b
      exact .enclosed (header_moves hheader) footer_moves (bodyStmts_bracketed (he.inner _ rfl))
    | _ =>
      refine .enclosed (header_moves hheader) footer_moves ?_
      split
      · exact he.stmt
      · exact he.value.bind fun _ ha => .line (returned_paired ha)

theorem methods_bracketed {owner : ClassKind} {fs : List FuncDecl} (hwords : ∀ f ∈ fs, ∀ w ∈ f.words, q.Paired w)
    (h : ∀ f ∈ fs, ∀ x ∈ f.places v, Bracketed q strict x.2) :
    Shifts q 0 0 (methods strict owner fs) fun _ => True := by
  induction fs with
  | nil =>
    rw [methods]
    exact .pure trivial
  | cons f fs ih =>
    obtain ⟨hf, hfs⟩ := List.forall_mem_cons.mp h
    obtain ⟨hwf, hwfs⟩ := List.forall_mem_cons.mp hwords
    rw [methods]
    exact Shifts.blank.bind fun _ _ => (method_bracketed hwf hf).bind fun _ _ => ih hwfs hfs

/-- The brackets pair up in the supertypes of a class as they are written. -/
structure PairedSupers (q : BracketKind) (out : Supers) : Prop where
  extended : ∀ s ∈ out.extended, q.Paired s
  implemented : ∀ s ∈ out.implemented, q.Paired s
  args : ∀ s ∈ out.args, q.Paired s

theorem supers_bracketed {isInterface : Bool} {above : List SuperDecl} {out : Supers}
    (hwords : ∀ a ∈ above, q.Spelled a.ty) (h : ∀ a ∈ above, ∀ e ∈ a.args.getD [], Bracketed q strict e)
    (hout : PairedSupers q out) : Shifts q 0 0 (supers strict isInterface above out) (PairedSupers q) := by
  have happend : ∀ {ts : List String} {t : String}, (∀ s ∈ ts, q.Paired s) → q.Paired t →
      ∀ s ∈ ts ++ [t], q.Paired s := fun hts ht =>
    List.forall_mem_append.mpr ⟨hts, fun s hs => List.mem_singleton.mp hs ▸ ht⟩
  induction above generalizing out with
  | nil =>
    rw [supers]
    exact .pure hout
  | cons a above ih =>
    obtain ⟨ha, habove⟩ := List.forall_mem_cons.mp h
    obtain ⟨hwa, hwabove⟩ := List.forall_mem_cons.mp hwords
    obtain ⟨t, args⟩ := a
    unfold supers
    refine (type_paired hwa).bind fun name hname => ?_
    cases args with
    | none =>
      refine ih hwabove habove ?_
      split
      · exact ⟨happend hout.extended hname, hout.implemented, hout.args⟩
      · exact ⟨hout.extended, happend hout.implemented hname, hout.args⟩
    | some es =>
      refine (exprs_bracketed ha).bind fun args hargs => ih hwabove habove ?_
      exact ⟨happend hout.extended hname, hout.implemented, fun s hs => Option.some.inj hs ▸ paired_commas hargs⟩

theorem cls_bracketed (hwords : ∀ w ∈ c.words, q.Paired w)
    (h : ∀ x ∈ (Decl.cls c).places v, Bracketed q strict x.2) : Shifts q 0 0 (cls strict c) fun _ => True := by
  obtain ⟨hargs, hfuncs⟩ := List.forall_mem_append.mp h
  rw [ClassDecl.words, List.forall_mem_cons, List.forall_mem_append, List.forall_mem_append,
    List.forall_mem_append] at hwords
  obtain ⟨hname, ⟨⟨htypes, hsupers⟩, hfields⟩, hwfuncs⟩ := hwords
  have habove : Shifts q 0 0 (supers strict (c.kind == .interface) c.supers ⟨[], [], none⟩) (PairedSupers q) := by
    refine supers_bracketed (fun a ha w hw => hsupers w (List.mem_flatMap.mpr ⟨a, ha, hw⟩)) (fun a ha e he => ?_)
      ⟨by simp, by simp, by simp⟩
    exact hargs (v, e) (List.mem_map_of_mem (List.mem_flatMap.mpr ⟨a, ha, he⟩))
  have hmembers : Shifts q 0 0 (methods strict c.kind c.funcs) fun _ => True :=
    methods_bracketed (fun f hf w hw => hwfuncs w (List.mem_flatMap.mpr ⟨f, hf, hw⟩)) fun f hf x hx =>
      hfuncs x (List.mem_flatMap.mpr ⟨f, hf, hx⟩)
  obtain ⟨name, kind, params, above, fields, members, isFinal⟩ := c
  unfold cls
  refine (typeParams_paired htypes).bind fun types htypes => habove.bind fun out hout => ?_
  have hextends : q.Paired (superClause "extends" out.extended) :=
    superClause_paired (.of_scan fun n cs => by cases q <;> simp) hout.extended
  have himplements : q.Paired (superClause "implements" out.implemented) :=
    superClause_paired (.of_scan fun n cs => by cases q <;> simp) hout.implemented
  have hkeyword : q.Paired (classKeyword kind isFinal) := classKeyword_paired
  have hname : q.Paired name := hname
  refine .enclosed (header_moves ?_) footer_moves ((classFields_shifts hname hfields hout.args).bind fun _ _ => hmembers)
  exact .of_scan fun n cs => by cases q <;> simp [hkeyword, hname, htypes, hextends, himplements]

theorem variable_moves {keyword type name value : String} (hkeyword : q.Paired keyword) (htype : q.Paired type)
    (hname : q.Paired name) (hvalue : q.Paired value) :
    q.Moves 0 0 (keyword ++ type ++ " " ++ name ++ " = " ++ value ++ ";") :=
  Paired.moves (.of_scan fun n cs => by cases q <;> simp [hkeyword, htype, hname, hvalue]) 0

/-- The brackets pair up in a declaration inside a body if they do in its names and in what stands in it. -/
theorem localDecl_bracketed (hwords : ∀ w ∈ d.words, q.Paired w) (h : ∀ x ∈ d.places v, Bracketed q strict x.2) :
    Shifts q 0 0 (localDecl strict d) fun _ => True := by
  cases d with
  | var x =>
    have hname : q.Paired x.name := hwords _ List.mem_cons_self
    have htype : q.Spelled x.ty := fun w hw => hwords w (List.mem_cons_of_mem _ hw)
    obtain ⟨name, t, init, isFinal, inferred⟩ := x
    have hinit : Pairs q (expr strict init) := (h (v, init) (List.mem_singleton_self _)).value
    have hkeyword : q.Paired (if isFinal then "final " else "") :=
      Paired.ite (.of_scan fun n cs => by cases q <;> simp) paired_empty
    rw [localDecl]
    split
    · exact (Shifts.pure (.of_scan fun n cs => by cases q <;> simp)).bind fun _ ht => hinit.bind fun _ hvalue =>
        .line (variable_moves hkeyword ht hname hvalue)
    · exact (type_paired htype).bind fun _ ht => hinit.bind fun _ hvalue =>
        .line (variable_moves hkeyword ht hname hvalue)
  | func f =>
    rw [localDecl]
    exact nestedFunc_bracketed hwords h
  | cls c =>
    rw [localDecl]
    exact cls_bracketed hwords h
  | param _ | field _ | lambda _ =>
    rw [localDecl]
    exact .pure trivial

/-- The brackets pair up in the statements of a block if they do in its names and in what stands in it. -/
theorem bracketedStmt_of_places (hwords : ∀ w ∈ b.words, q.Paired w)
    (h : ∀ x ∈ b.places v, Bracketed q strict x.2) : ∀ s ∈ b.stmts, BracketedStmt q strict s := by
  intro s hs
  cases s with
  | decl d =>
    refine ⟨?_, fun e he => by cases he⟩
    rw [stmt]
    exact localDecl_bracketed (fun w hw => hwords w (List.mem_flatMap.mpr ⟨_, hs, hw⟩)) fun x hx =>
      h x (List.mem_flatMap.mpr ⟨_, hs, hx⟩)
  | expr e =>
    have he : Bracketed q strict e := h (_, e) (List.mem_flatMap.mpr ⟨_, hs, List.mem_singleton_self _⟩)
    refine ⟨?_, fun a ha => ?_⟩
    · rw [stmt]
      exact he.stmt
    · cases ha
      exact ⟨he.value, he.stmt, he.type⟩

/-- A block has the type of its last statement. -/
theorem spelled_lastType (h : ∀ s ∈ ss, BracketedStmt q strict s) (ht : Stmt.lastType? ss = some t) :
    q.Spelled t := by
  induction ss with
  | nil => cases ht
  | cons s ss ih =>
    obtain ⟨hs, hss⟩ := List.forall_mem_cons.mp h
    cases ss with
    | nil =>
      cases s with
      | expr e => exact (hs.inner e rfl).2.2 t ht
      | decl d => cases ht
    | cons s' rest =>
      rw [Stmt.lastType?] at ht
      exact ih hss ht

/-- A flat expression has its type among its names. -/
theorem spelled_of_isFlat (hflat : e.isFlat) (hwords : ∀ w ∈ e.words, q.Paired w) (ht : e.ty? = some t) :
    q.Spelled t := by
  cases e with
  | block _ | lambda _ | loop _ => cases hflat
  | assign _ _ _ | step _ _ | print _ => cases ht
  | const _ _ | var _ _ | field _ _ _ | funcRef _ _ _ =>
    cases ht
    exact fun w hw => hwords w (List.mem_cons_of_mem _ hw)
  | instanceOf _ _ _ | call _ _ _ _ _ _ =>
    cases ht
    exact fun w hw => hwords w (List.mem_cons_of_mem _ (List.mem_append_right _ hw))
  | _ =>
    cases ht
    exact hwords

/-- **The brackets pair up in an expression if they do in its names and in what stands in it.** -/
theorem bracketed_of_places (hwords : ∀ w ∈ e.words, q.Paired w) (h : ∀ x ∈ e.places v, Bracketed q strict x.2) :
    Bracketed q strict e := by
  by_cases hflat : e.isFlat
  · rw [Expr.places_of_isFlat hflat] at h
    have hparts : ∀ a ∈ e.children, Bracketed q strict a := fun a ha => h (v, a) (List.mem_map_of_mem ha)
    have hvalue := expr_bracketed hflat hwords hparts
    refine ⟨hwords, fun t => spelled_of_isFlat hflat hwords, hvalue, exprStmt_bracketed hflat hvalue hparts, ?_⟩
    rintro b rfl
    cases hflat
  · cases e with
    | block b =>
      have hinner := bracketedStmt_of_places hwords h
      obtain ⟨ss, _⟩ := b
      refine ⟨hwords, fun t => spelled_lastType hinner, ?_, ?_, fun b hb => ?_⟩
      · rw [expr]
        exact .throw
      · rw [exprStmt]
        exact (Shifts.braced paired_empty (stmts_bracketed hinner)).bind fun _ ha => .line (ha.moves 0)
      · cases hb
        exact hinner
    | lambda l =>
      have hbody : Bracketed q strict l.body := h (_, l.body) (List.mem_append_right _ (List.mem_singleton_self _))
      have hvalue : Pairs q (expr strict (.lambda l)) := by
        rw [expr]
        exact lambda_bracketed hwords hbody
      refine ⟨hwords, fun t ht w hw => ?_, hvalue, ?_, fun b hb => by cases hb⟩
      · cases ht
        refine hwords w ?_
        cases hsam : l.samTarget with
        | none =>
          rw [hsam] at hw
          exact List.mem_append_left _ (List.mem_append_right _ hw)
        | some target =>
          rw [hsam] at hw
          exact List.mem_append_right _ (List.mem_flatMap.mpr ⟨target, by simp [hsam], hw⟩)
      · unfold exprStmt
        exact exprStmt_of_value hvalue
    | loop x =>
      rw [show (Expr.loop x).places v = _ from x.places_eq v] at h
      obtain ⟨hhead, hbody⟩ := List.forall_mem_append.mp h
      have hinner : ∀ w ∈ x.body.words, q.Paired w := fun w hw => hwords w (by
        cases x with
        | forEach y iterable body | forRange y start stop body => exact List.mem_cons_of_mem _ hw
        | whileCond cond body bodyFirst => exact hw)
      refine ⟨hwords, nofun, ?_, ?_, nofun⟩
      · rw [expr]
        exact .throw
      · rw [exprStmt]
        exact loop_bracketed hwords (fun a ha => hhead (v, a) (List.mem_map_of_mem ha))
          (bracketedStmt_of_places hinner hbody)
    | _ => exact absurd rfl hflat

/-! ## Programs -/

/-- The brackets pair up in a declaration of the top level if they do in its names and in what stands in
it. -/
theorem member_bracketed (hwords : ∀ w ∈ d.words, q.Paired w) (h : ∀ x ∈ d.places v, Bracketed q strict x.2) :
    Shifts q 0 0 (member strict d) fun _ => True := by
  cases d with
  | var x =>
    have hname : q.Paired x.name := hwords _ List.mem_cons_self
    have htype : q.Spelled x.ty := fun w hw => hwords w (List.mem_cons_of_mem _ hw)
    have hkeyword : q.Paired (if x.isFinal then "static final " else "static ") :=
      Paired.ite (.of_scan fun n cs => by cases q <;> simp) (.of_scan fun n cs => by cases q <;> simp)
    exact (type_paired htype).bind fun _ ht => (h (v, x.init) (List.mem_singleton_self _)).value.bind
      fun _ hvalue => .line (variable_moves hkeyword ht hname hvalue)
  | func f => exact method_bracketed hwords h
  | cls c => exact cls_bracketed hwords h
  | param _ | field _ | lambda _ => exact .pure trivial

theorem members_bracketed {ds : List Decl} (hwords : ∀ d ∈ ds, ∀ w ∈ d.words, q.Paired w)
    (h : ∀ d ∈ ds, ∀ x ∈ d.places v, Bracketed q strict x.2) : Shifts q 0 0 (members strict ds) fun _ => True := by
  induction ds with
  | nil => exact .pure trivial
  | cons d ds ih =>
    obtain ⟨hd, hds⟩ := List.forall_mem_cons.mp h
    obtain ⟨hwd, hwds⟩ := List.forall_mem_cons.mp hwords
    cases ds with
    | nil => exact member_bracketed hwd hd
    | cons => exact (member_bracketed hwd hd).bind fun _ _ => Shifts.blank.bind fun _ _ => ih hwds hds

/-- The brackets of a program pair up if they do in its names and in what stands in its declarations. -/
theorem declarations_bracketed {ds : List Decl} (hwords : ∀ d ∈ ds, ∀ w ∈ d.words, q.Paired w)
    (h : ∀ d ∈ ds, ∀ x ∈ d.places v, Bracketed q strict x.2) :
    Shifts q 0 0 (declarations strict ds) fun _ => True := by
  have hmain : q.Paired ("class " ++ mainClass) := .of_scan fun n cs => by cases q <;> simp [mainClass]
  refine .enclosed (header_moves hmain) footer_moves ?_
  refine (members_bracketed (fun d hd => hwords d (List.mem_of_mem_filter hd))
    fun d hd => h d (List.mem_of_mem_filter hd)).bind fun _ _ => .get fun p _ => ?_
  split
  · exact .pure trivial
  · exact Shifts.blank.bind fun _ _ => .forM fun n _ => .line ((functionInterface_paired n).moves 0)

end Java

end ProgramGen

import ProgramGen.Proofs.Emit.Success
import ProgramGen.Proofs.Program.Discipline

/-!
# What can be written in Java

The emitter of Java has no text for a block or a loop that stands where a value is needed, nor for a
nested function without a body. A disciplined expression has neither in it. So it can be written as a
statement, and, unless it is a block or a loop itself, as a value; by induction on its parts.
-/

namespace ProgramGen

namespace Java

open Emit

variable {e body : Expr} {b : Block} {d : Decl} {f : FuncDecl} {c : ClassDecl} {l : LambdaDecl} {v : Visibility}
variable {s : Stmt} {ss : List Stmt} {es : List Expr} {ds : List Decl} {ret : Ty} {n : Nat}

/-- A statement can be written, and so can the value of one that has a value. -/
structure WritesStmt (s : Stmt) : Prop where
  stmt : (stmt false s).Succeeds
  value : ∀ e, s = .expr e → e.isValue → (expr false e).Succeeds

/-- An expression can be written: where a value is needed, if it has one, and as a statement; and so can
the statements of a block. -/
structure Writes (e : Expr) : Prop where
  value : e.isValue → (expr false e).Succeeds
  stmt : (exprStmt false (expr false e) e).Succeeds
  inner : ∀ b, e = .block b → ∀ s ∈ b.stmts, WritesStmt s

/-! ## Lists -/

theorem exprs_succeeds (h : ∀ e ∈ es, (expr false e).Succeeds) : (exprs false es).Succeeds := by
  induction es with
  | nil =>
    unfold exprs
    exact .pure
  | cons e es ih =>
    obtain ⟨he, hes⟩ := List.forall_mem_cons.mp h
    unfold exprs
    exact he.bind fun _ => (ih hes).bind fun _ => .pure

theorem stmts_succeeds (h : ∀ s ∈ ss, WritesStmt s) : (stmts false ss).Succeeds := by
  induction ss with
  | nil =>
    unfold stmts
    exact .pure
  | cons s ss ih =>
    obtain ⟨hs, hss⟩ := List.forall_mem_cons.mp h
    unfold stmts
    exact hs.stmt.bind fun _ => ih hss

/-- The statements of a body, of which the last is the result if it has one. -/
theorem bodyStmts_succeeds (h : ∀ s ∈ ss, WritesStmt s)
    (hlast : ret.isVoid = false → ∀ e, ss.getLast? = some (.expr e) → e.isValue) :
    (bodyStmts false (!ret.isVoid) ss).Succeeds := by
  induction ss with
  | nil =>
    unfold bodyStmts
    exact .pure
  | cons s ss ih =>
    obtain ⟨hs, hss⟩ := List.forall_mem_cons.mp h
    by_cases hresult : (∃ e, s = .expr e) ∧ ss = []
    · obtain ⟨⟨e, rfl⟩, rfl⟩ := hresult
      rw [bodyStmts]
      split
      · rename_i hvalue
        have hret : ret.isVoid = false := by simpa using hvalue
        exact (hs.value e rfl (hlast hret e rfl)).bind fun _ => .line
      · have hstmt := hs.stmt
        rwa [stmt] at hstmt
    · rw [bodyStmts_cons fun e hs hss => hresult ⟨⟨e, hs⟩, hss⟩]
      refine hs.stmt.bind fun _ => ih hss fun hret e he => hlast hret e ?_
      rw [List.getLast?_cons, he]
      rfl

/-! ## Bodies -/

/-- What can be written of a body: the statements of a block; another body as a statement, and as a
value where one is returned. -/
structure WritesBody (ret : Ty) (body : Expr) : Prop where
  block : ∀ ss isFuncBody, body = .block ⟨ss, isFuncBody⟩ → (bodyStmts false (!ret.isVoid) ss).Succeeds
  stmt : (exprStmt false (expr false body) body).Succeeds
  value : (∀ ss isFuncBody, body ≠ .block ⟨ss, isFuncBody⟩) → ¬ret.isVoid → (expr false body).Succeeds

/-- A body can be written if the expressions whose values it gives back have values. -/
theorem Writes.asBody (h : Writes body) (hresults : ∀ a ∈ body.results ret, a.isValue) : WritesBody ret body where
  block ss isFuncBody hb := by
    subst hb
    refine bodyStmts_succeeds (h.inner _ rfl) fun hret e he => hresults e ?_
    simp [Expr.results, hret, he]
  stmt := h.stmt
  value hblock hret := by
    refine h.value (hresults body ?_)
    unfold Expr.results
    rw [if_neg hret]
    split
    · rename_i b
      obtain ⟨ss, isFuncBody⟩ := b
      exact (hblock ss isFuncBody rfl).elim
    · exact List.mem_singleton_self body

/-- A line that is there only if something holds can be written. -/
theorem optionalLine_succeeds {p : Prop} [Decidable p] {text : String} :
    (if p then Emit.line text else pure ()).Succeeds := by
  split
  · exact .line
  · exact .pure

theorem lambda_succeeds (h : WritesBody l.ret l.body) : (lambda false l).Succeeds := by
  obtain ⟨_, params, ret, body, signature, sam⟩ := l
  obtain ⟨hblock, hstmt, hvalue⟩ := h
  unfold lambda
  refine paramList_succeeds.bind fun _ => ?_
  extract_lets text
  have htext : ∀ u, (text u).Succeeds := by
    intro u
    unfold text
    split
    · refine Succeeds.bind (.detached ?_) fun _ => Succeeds.pad.bind fun _ => .pure
      exact (hblock _ _ rfl).bind fun _ => optionalLine_succeeds
    · rename_i hother
      split
      · refine Succeeds.bind (.detached ?_) fun _ => Succeeds.pad.bind fun _ => .pure
        exact hstmt.bind fun _ => optionalLine_succeeds
      · exact (hvalue hother ‹_›).bind fun _ => .pure
  split
  · exact useArities_succeeds.bind htext
  · exact htext ()

theorem nestedFunc_succeeds (hbody : ∀ body ∈ f.body, WritesBody f.ret body) (hwhole : f.isAbstract = false) :
    (nestedFunc false f).Succeeds := by
  obtain ⟨name, params, ret, _ | body, _, _, _, _⟩ := f
  · cases hwhole
  · obtain ⟨hblock, hstmt, hvalue⟩ := hbody body rfl
    unfold nestedFunc
    refine useArities_succeeds.bind fun _ => .bind (.mapM fun _ _ => typeArg_succeeds) fun _ =>
      paramList_succeeds.bind fun _ => .enclosed ?_
    split
    · rename_i heq
      cases heq
    · rename_i heq
      cases heq
      exact (hblock _ _ rfl).bind fun _ => optionalLine_succeeds
    · rename_i hother heq
      cases heq
      split
      · exact hstmt.bind fun _ => .line
      · exact (hvalue hother ‹_›).bind fun _ => .line

theorem method_succeeds {owner : Option ClassKind} (hbody : ∀ body ∈ f.body, WritesBody f.ret body) :
    (method false owner f).Succeeds := by
  obtain ⟨name, params, ret, _ | body, _, _, _, _⟩ := f
  · unfold method
    exact methodHeader_succeeds.bind fun _ => .line
  · obtain ⟨hblock, hstmt, hvalue⟩ := hbody body rfl
    unfold method
    refine methodHeader_succeeds.bind fun _ => ?_
    split
    · exact .line
    · rename_i heq
      cases heq
      exact .enclosed (hblock _ _ rfl)
    · rename_i hother heq
      cases heq
      refine .enclosed ?_
      split
      · exact hstmt
      · exact (hvalue hother ‹_›).bind fun _ => .line

/-! ## Classes -/

theorem methods_succeeds {owner : ClassKind} {fs : List FuncDecl}
    (h : ∀ f ∈ fs, ∀ body ∈ f.body, WritesBody f.ret body) : (methods false owner fs).Succeeds := by
  induction fs with
  | nil =>
    unfold methods
    exact .pure
  | cons f fs ih =>
    obtain ⟨hf, hfs⟩ := List.forall_mem_cons.mp h
    unfold methods
    exact Succeeds.blank.bind fun _ => (method_succeeds hf).bind fun _ => ih hfs

theorem supers_succeeds {isInterface : Bool} {above : List SuperDecl} {out : Supers}
    (h : ∀ a ∈ above, ∀ e ∈ a.args.getD [], (expr false e).Succeeds) :
    (supers false isInterface above out).Succeeds := by
  induction above generalizing out with
  | nil =>
    unfold supers
    exact .pure
  | cons a above ih =>
    obtain ⟨ha, habove⟩ := List.forall_mem_cons.mp h
    obtain ⟨t, _ | args⟩ := a
    · unfold supers
      exact type_succeeds.bind fun _ => ih habove
    · unfold supers
      exact type_succeeds.bind fun _ => (exprs_succeeds ha).bind fun _ => ih habove

theorem cls_succeeds (hargs : ∀ e ∈ c.superArgs, (expr false e).Succeeds)
    (hbodies : ∀ f ∈ c.funcs, ∀ body ∈ f.body, WritesBody f.ret body) : (cls false c).Succeeds := by
  obtain ⟨name, kind, params, above, fields, funcs, isFinal⟩ := c
  unfold cls
  refine typeParams_succeeds.bind fun _ =>
    (supers_succeeds fun a ha e he => hargs e ?_).bind fun _ => .enclosed ?_
  · exact List.mem_flatMap.mpr ⟨a, ha, he⟩
  · exact classFields_succeeds.bind fun _ => methods_succeeds hbodies

/-! ## Declarations -/

/-- The body of a function can be written if what stands in the function can be. -/
theorem writesBody_of_places (hplaces : ∀ x ∈ f.places v, Writes x.2) (hvalues : ∀ e ∈ f.values, e.isValue) :
    ∀ body ∈ f.body, WritesBody f.ret body := by
  intro body hbody
  have hwrites : Writes body :=
    hplaces (_, body) (List.mem_append_right _ (List.mem_map.mpr ⟨body, by simpa using hbody, rfl⟩))
  exact hwrites.asBody fun a ha =>
    hvalues a (List.mem_append_right _ (List.mem_flatMap.mpr ⟨body, by simpa using hbody, ha⟩))

/-- A class can be written if what stands in it can be. -/
theorem cls_of_places (hplaces : ∀ x ∈ (Decl.cls c).places v, Writes x.2)
    (hvalues : ∀ e ∈ (Decl.cls c).values, e.isValue) : (cls false c).Succeeds := by
  refine cls_succeeds (fun e he => ?_) fun f hf => ?_
  · exact (hplaces (v, e) (List.mem_append_left _ (List.mem_map_of_mem he))).value
      (hvalues e (List.mem_append_left _ he))
  · exact writesBody_of_places
      (fun x hx => hplaces x (List.mem_append_right _ (List.mem_flatMap.mpr ⟨f, hf, hx⟩)))
      fun e he => hvalues e (List.mem_append_right _ (List.mem_flatMap.mpr ⟨f, hf, he⟩))

/-- A declaration inside a body can be written if what stands in it can be. -/
theorem localDecl_succeeds (hplaces : ∀ x ∈ d.places v, Writes x.2) (hvalues : ∀ e ∈ d.values, e.isValue)
    (hwhole : d.IsWhole) : (localDecl false d).Succeeds := by
  cases d with
  | var x =>
    obtain ⟨name, t, init, isFinal, inferred⟩ := x
    have hinit : (expr false init).Succeeds :=
      (hplaces (v, init) (List.mem_singleton_self _)).value (hvalues init (List.mem_singleton_self _))
    rw [localDecl]
    split
    · exact Succeeds.bind .pure fun _ => hinit.bind fun _ => .line
    · exact type_succeeds.bind fun _ => hinit.bind fun _ => .line
  | func f =>
    rw [localDecl]
    exact nestedFunc_succeeds (writesBody_of_places hplaces hvalues) (hwhole f rfl)
  | cls c =>
    rw [localDecl]
    exact cls_of_places hplaces hvalues
  | param _ | field _ | lambda _ =>
    rw [localDecl]
    exact .pure

/-- A declaration of the top level can be written if what stands in it can be. -/
theorem member_succeeds (hplaces : ∀ x ∈ d.places v, Writes x.2) (hvalues : ∀ e ∈ d.values, e.isValue) :
    (member false d).Succeeds := by
  cases d with
  | var x =>
    have hinit : (expr false x.init).Succeeds :=
      (hplaces (v, x.init) (List.mem_singleton_self _)).value (hvalues _ (List.mem_singleton_self _))
    exact type_succeeds.bind fun _ => hinit.bind fun _ => .line
  | func f => exact method_succeeds (writesBody_of_places hplaces hvalues)
  | cls c => exact cls_of_places hplaces hvalues
  | param _ | field _ | lambda _ => exact .pure

theorem members_succeeds (h : ∀ d ∈ ds, (member false d).Succeeds) : (members false ds).Succeeds := by
  induction ds with
  | nil => exact .pure
  | cons d ds ih =>
    obtain ⟨hd, hds⟩ := List.forall_mem_cons.mp h
    cases ds with
    | nil => exact hd
    | cons => exact hd.bind fun _ => Succeeds.blank.bind fun _ => ih hds

theorem declarations_succeeds (h : ∀ d ∈ ds, (member false d).Succeeds) : (declarations false ds).Succeeds := by
  refine .enclosed ((members_succeeds fun d hd => h d (List.mem_of_mem_filter hd)).bind fun _ => .get fun p => ?_)
  split
  · exact .pure
  · exact Succeeds.blank.bind fun _ => .forM fun _ _ => .line

/-! ## Expressions -/

/-- The statements of a block can be written if what stands in them can be. -/
theorem writesStmt_of_places (hplaces : ∀ x ∈ b.places v, Writes x.2)
    (hdecls : ∀ d ∈ b.decls, d.Shaped .java n ∧ d.IsWhole) : ∀ s ∈ b.stmts, WritesStmt s := by
  intro s hs
  cases s with
  | decl d =>
    obtain ⟨hshaped, hwhole⟩ := hdecls d (List.mem_filterMap.mpr ⟨_, hs, rfl⟩)
    refine ⟨?_, nofun⟩
    rw [stmt]
    exact localDecl_succeeds (fun x hx => hplaces x (List.mem_flatMap.mpr ⟨_, hs, hx⟩)) (hshaped.values rfl) hwhole
  | expr e =>
    have he : Writes e := hplaces (_, e) (List.mem_flatMap.mpr ⟨_, hs, List.mem_singleton_self _⟩)
    refine ⟨?_, fun a ha => ?_⟩
    · rw [stmt]
      exact he.stmt
    · cases ha
      exact he.value

theorem loop_succeeds {x : Loop} (hhead : ∀ e ∈ x.head, (expr false e).Succeeds)
    (hbody : ∀ s ∈ x.body.stmts, WritesStmt s) : (loop false x).Succeeds := by
  cases x with
  | forEach var iterable body =>
    obtain ⟨ss, _⟩ := body
    rw [loop]
    exact exactType_succeeds.bind fun _ => (hhead iterable (List.mem_singleton_self _)).bind fun _ =>
      (Succeeds.braced (stmts_succeeds hbody)).bind fun _ => .line
  | forRange var start stop body =>
    obtain ⟨ss, _⟩ := body
    obtain ⟨hstart, hstop⟩ := List.forall_mem_cons.mp hhead
    rw [loop]
    exact hstart.bind fun _ => (hstop stop (List.mem_singleton_self _)).bind fun _ =>
      (Succeeds.braced (stmts_succeeds hbody)).bind fun _ => .line
  | whileCond cond body bodyFirst =>
    obtain ⟨ss, _⟩ := body
    rw [loop]
    exact (hhead cond (List.mem_singleton_self _)).bind fun _ =>
      (Succeeds.braced (stmts_succeeds hbody)).bind fun _ => .line

/-- A flat expression has a text if its parts have. -/
theorem expr_succeeds (hflat : e.isFlat) (h : ∀ a ∈ e.children, (expr false a).Succeeds) :
    (expr false e).Succeeds := by
  -- Printing a flat expression fails only where printing one of its children does.
  cases e with
  | block _ => cases hflat
  | lambda _ => cases hflat
  | loop _ => cases hflat
  | unresolved t =>
    rw [expr]
    exact exactType_succeeds.bind fun _ => .pure
  | const literal t =>
    rw [expr]
    exact .pure
  | var name t =>
    rw [expr]
    exact variableText_succeeds
  | conditional c t f ty =>
    simp only [Expr.children, List.forall_mem_cons] at h
    obtain ⟨hc, ht, hf, -⟩ := h
    rw [expr]
    exact hc.bind fun _ => (narrowed_succeeds ht).bind fun _ => hf.bind fun _ => .pure
  | instanceOf var target ty =>
    rw [expr]
    exact rawType_succeeds.bind fun _ => .pure
  | logical op l r ty | equality op l r ty | comparison op l r ty =>
    simp only [Expr.children, List.forall_mem_cons] at h
    obtain ⟨hl, hr, -⟩ := h
    rw [expr]
    exact .binary hl hr
  | arith op l r ty cast =>
    simp only [Expr.children, List.forall_mem_cons] at h
    obtain ⟨hl, hr, -⟩ := h
    rw [expr]
    exact (Succeeds.binary hl hr).bind fun _ => .pure
  | new t args =>
    rw [expr]
    exact exactType_succeeds.bind fun _ => (exprs_succeeds h).bind fun _ => .pure
  | field r name t =>
    rw [expr]
    exact (h r (List.mem_singleton_self _)).bind fun _ => .pure
  | call receiver name typeArgs args ret ofValue =>
    obtain ⟨hr, hargs⟩ := List.forall_mem_append.mp h
    rw [expr]
    refine (exprs_succeeds hargs).bind fun _ => ?_
    split
    · exact variableText_succeeds.bind fun _ => .pure
    · refine callTypeArgs_succeeds.bind fun _ => ?_
      cases receiver with
      | none => exact Succeeds.bind .pure fun _ => .pure
      | some r => exact (asReceiver_succeeds (hr r (List.mem_singleton_self _))).bind fun _ => .pure
  | funcRef receiver name signature =>
    cases receiver with
    | none =>
      rw [expr]
      exact Succeeds.bind .pure fun _ => funcRefText_succeeds
    | some r =>
      rw [expr]
      exact (asReceiver_succeeds (h r (List.mem_singleton_self _))).bind fun _ => funcRefText_succeeds
  | array t elems =>
    rw [expr]
    exact (exprs_succeeds h).bind fun _ => arrayText_succeeds
  | cast a t =>
    rw [expr]
    exact type_succeeds.bind fun _ => (h a (List.mem_singleton_self _)).bind fun _ => .pure
  | assign receiver name a =>
    obtain ⟨hr, ha⟩ := List.forall_mem_append.mp h
    rw [expr]
    refine (ha a (List.mem_singleton_self _)).bind fun _ => ?_
    cases receiver with
    | none => exact .pure
    | some r => exact (hr r (List.mem_singleton_self _)).bind fun _ => .pure
  | step name op =>
    rw [expr]
    exact .pure
  | stringLength a t =>
    rw [expr]
    exact (h a (List.mem_singleton_self _)).bind fun _ => .pure
  | print a =>
    rw [expr]
    exact (h a (List.mem_singleton_self _)).bind fun _ => .pure

/-- A flat expression can stand as a statement if it has a text, and its parts can. -/
theorem exprStmt_succeeds (hflat : e.isFlat) (hvalue : (expr false e).Succeeds)
    (h : ∀ a ∈ e.children, (expr false a).Succeeds ∧ (exprStmt false (expr false a) a).Succeeds) :
    (exprStmt false (expr false e) e).Succeeds := by
  unfold exprStmt
  split
  · cases hflat
  · simp only [Expr.children, List.forall_mem_cons] at h
    obtain ⟨⟨hc, -⟩, ⟨-, ht⟩, ⟨-, hf⟩, -⟩ := h
    exact hc.bind fun _ => Succeeds.line.bind fun _ => (Succeeds.indented (narrowed_succeeds ht)).bind fun _ =>
      Succeeds.line.bind fun _ => (Succeeds.indented hf).bind fun _ => .line
  · cases hflat
  · split
    · exact .pure
    · exact hvalue.bind fun _ => .line
  · exact hvalue.bind fun _ => .line

/-- **A disciplined expression can be written.** -/
theorem writes_of_disciplined {context : Context} (h : e.Disciplined context .java n v) : Writes e := by
  induction h with
  | @mk v e _ _ _ hshaped _ ih =>
    -- The discipline forbids a statement in the place of a value, which is all that can fail.
    by_cases hflat : e.isFlat
    · have hoperands : e.operands = e.children := by cases e <;> first | rfl | cases hflat
      have hparts : ∀ a ∈ e.children, (expr false a).Succeeds ∧ (exprStmt false (expr false a) a).Succeeds := by
        intro a ha
        rw [Expr.places_of_isFlat hflat] at ih
        have hwrites : Writes a := ih (v, a) (List.mem_map_of_mem ha)
        exact ⟨hwrites.value (hshaped.operands rfl a (hoperands ▸ ha)), hwrites.stmt⟩
      have hvalue := expr_succeeds hflat fun a ha => (hparts a ha).1
      refine ⟨fun _ => hvalue, exprStmt_succeeds hflat hvalue hparts, fun b hb => ?_⟩
      subst hb
      cases hflat
    · cases e with
      | block b =>
        obtain ⟨ss, isFuncBody⟩ := b
        have hinner : ∀ s ∈ ss, WritesStmt s := writesStmt_of_places (b := ⟨ss, isFuncBody⟩) ih hshaped.decls
        refine ⟨nofun, ?_, fun _ hb => ?_⟩
        · rw [exprStmt]
          exact (Succeeds.braced (stmts_succeeds hinner)).bind fun _ => .line
        · cases hb
          exact hinner
      | lambda l =>
        obtain ⟨hclosure, -⟩ := hshaped.decls _ (List.mem_singleton_self _)
        have hbody : Writes l.body := ih (_, l.body) (List.mem_append_right _ (List.mem_singleton_self _))
        have hvalue : (expr false (.lambda l)).Succeeds := by
          rw [expr]
          exact lambda_succeeds (hbody.asBody fun a ha => hclosure.values rfl a (List.mem_append_right _ ha))
        refine ⟨fun _ => hvalue, ?_, nofun⟩
        rw [exprStmt]
        · exact hvalue.bind fun _ => .line
        all_goals exact nofun
      | loop x =>
        rw [show (Expr.loop x).places v = _ from x.places_eq v] at ih
        obtain ⟨hhead, hbody⟩ := List.forall_mem_append.mp ih
        refine ⟨nofun, ?_, nofun⟩
        rw [exprStmt]
        refine loop_succeeds (fun a ha => ?_) (writesStmt_of_places hbody hshaped.decls)
        exact (hhead (v, a) (List.mem_map_of_mem ha)).value (hshaped.operands rfl a ha)
      | _ => exact absurd rfl hflat

end Java

end ProgramGen

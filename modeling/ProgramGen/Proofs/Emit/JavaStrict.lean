import ProgramGen.Proofs.Emit.Follows
import ProgramGen.Proofs.Program.Places

/-!
# Refused placeholders in Java

A placeholder is a null of its type as a value, and as a statement it is left out if it has no value.
Strict emission fails in either place. All else is written alike if its parts are, on a page with the
same narrowed variables and the same function types so far.
-/

namespace ProgramGen

namespace Java

open Emit

variable {plain : Prop} {e : Expr} {b : Block} {d : Decl} {f : FuncDecl} {c : ClassDecl}
variable {l : LambdaDecl} {v : Visibility} {s : Stmt} {ss : List Stmt} {es : List Expr}

/-- A statement is written alike, and so is the expression that it may be, also as a result. -/
structure AlikeStmt (plain : Prop) (s : Stmt) : Prop where
  stmt : Follows plain (stmt true s) (stmt false s)
  inner : ∀ e, s = .expr e → Follows plain (expr true e) (expr false e) ∧
    Follows plain (exprStmt true (expr true e) e) (exprStmt false (expr false e) e)

/-- What is written of an expression follows what is written of it in strict use, as a value and as a
statement, and so with the statements of a block; and it is no placeholder if `plain` holds. -/
structure Alike (plain : Prop) (e : Expr) : Prop where
  resolved : plain → e.isUnresolved = false
  value : Follows plain (expr true e) (expr false e)
  stmt : Follows plain (exprStmt true (expr true e) e) (exprStmt false (expr false e) e)
  inner : ∀ b, e = .block b → ∀ s ∈ b.stmts, AlikeStmt plain s

/-! ## Expressions in their places -/

theorem expr_unresolved_fails {t : Ty} : (expr true (.unresolved t)).Fails := by
  rw [expr]
  exact Fails.bind fun _ => Fails.throw

theorem narrowed_follows {α : Type} {cond : Expr} {x y : Emit α} (h : Follows plain x y) :
    Follows plain (narrowed cond x) (narrowed cond y) := by
  cases cond with
  | instanceOf var target t =>
    exact h.onPage (fun p => { p with casts := (var, target) :: p.casts })
      (fun _ r => (r.1, { r.2 with casts := r.2.casts.tail })) fun _ _ b hb => ⟨b, hb⟩
  | _ => exact h

theorem asReceiver_follows {x y : Emit String} (h : Follows plain x y) :
    Follows plain (asReceiver e x) (asReceiver e y) := by
  cases e with
  | arith op l r t cast =>
    unfold asReceiver
    dsimp only
    split
    · exact .bind_same fun _ => h.bind_const _
    · exact h
  | _ => exact h

/-! ## Lists -/

theorem exprs_alike (h : ∀ e ∈ es, Alike plain e) : Follows plain (exprs true es) (exprs false es) := by
  induction es with
  | nil =>
    rw [exprs, exprs]
    exact .refl _
  | cons e es ih =>
    obtain ⟨he, hes⟩ := List.forall_mem_cons.mp h
    rw [exprs, exprs]
    exact he.value.bind fun _ => (ih hes).bind_const _

theorem stmts_alike (h : ∀ s ∈ ss, AlikeStmt plain s) : Follows plain (stmts true ss) (stmts false ss) := by
  induction ss with
  | nil =>
    rw [stmts, stmts]
    exact .refl _
  | cons s ss ih =>
    obtain ⟨hs, hss⟩ := List.forall_mem_cons.mp h
    rw [stmts, stmts]
    exact hs.stmt.bind fun _ => ih hss

/-- The statements of a body, of which the last is the result if it has one. -/
theorem bodyStmts_alike {returns : Bool} (h : ∀ s ∈ ss, AlikeStmt plain s) :
    Follows plain (bodyStmts true returns ss) (bodyStmts false returns ss) := by
  induction ss with
  | nil =>
    rw [bodyStmts, bodyStmts]
    exact .refl _
  | cons s ss ih =>
    obtain ⟨hs, hss⟩ := List.forall_mem_cons.mp h
    -- The last statement is a result if it is an expression; any other one is only a statement.
    by_cases hresult : (∃ e, s = .expr e) ∧ ss = []
    · obtain ⟨⟨e, rfl⟩, rfl⟩ := hresult
      obtain ⟨hvalue, hstmt⟩ := hs.inner e rfl
      rw [bodyStmts, bodyStmts]
      split
      · exact hvalue.bind_const _
      · exact hstmt
    · have hother : ∀ e, s = .expr e → ss ≠ [] := fun e hs hss => hresult ⟨⟨e, hs⟩, hss⟩
      rw [bodyStmts_cons hother, bodyStmts_cons hother]
      exact hs.stmt.bind fun _ => ih hss

/-! ## Expressions -/

theorem loop_alike {x : Loop} (hhead : ∀ e ∈ x.head, Alike plain e)
    (hbody : ∀ s ∈ x.body.stmts, AlikeStmt plain s) : Follows plain (loop true x) (loop false x) := by
  cases x with
  | forEach var iterable body =>
    obtain ⟨ss, _⟩ := body
    rw [loop, loop]
    exact .bind_same fun _ => (hhead iterable (List.mem_singleton_self _)).value.bind fun _ =>
      (Follows.braced (stmts_alike hbody)).bind_const _
  | forRange var start stop body =>
    obtain ⟨ss, _⟩ := body
    obtain ⟨hstart, hstop⟩ := List.forall_mem_cons.mp hhead
    rw [loop, loop]
    exact hstart.value.bind fun _ => (hstop stop (List.mem_singleton_self _)).value.bind fun _ =>
      (Follows.braced (stmts_alike hbody)).bind_const _
  | whileCond cond body bodyFirst =>
    obtain ⟨ss, _⟩ := body
    rw [loop, loop]
    exact (hhead cond (List.mem_singleton_self _)).value.bind fun _ =>
      (Follows.braced (stmts_alike hbody)).bind_const _

/-- A flat expression is written alike as a value if its parts are. -/
theorem expr_alike (hflat : e.isFlat) (hresolved : plain → e.isUnresolved = false)
    (h : ∀ a ∈ e.children, Alike plain a) : Follows plain (expr true e) (expr false e) := by
  -- The strict printer differs on an unresolved expression alone; every other case follows from its
  -- parts.
  cases e with
  | block _ => cases hflat
  | lambda _ => cases hflat
  | loop _ => cases hflat
  | unresolved t => exact .of_fails (fun hp => by cases hresolved hp) expr_unresolved_fails
  | const literal t | var name t | instanceOf var target t | step name op =>
    rw [expr, expr]
    exact .refl _
  | conditional c t f ty =>
    simp only [Expr.children, List.forall_mem_cons] at h
    obtain ⟨hc, ht, hf, -⟩ := h
    rw [expr, expr]
    exact hc.value.bind fun _ => (narrowed_follows ht.value).bind fun _ => hf.value.bind_const _
  | logical op l r ty | equality op l r ty | comparison op l r ty =>
    simp only [Expr.children, List.forall_mem_cons] at h
    obtain ⟨hl, hr, -⟩ := h
    rw [expr, expr]
    exact .binary hl.value hr.value
  | arith op l r ty cast =>
    simp only [Expr.children, List.forall_mem_cons] at h
    obtain ⟨hl, hr, -⟩ := h
    rw [expr, expr]
    exact (Follows.binary hl.value hr.value).bind_const _
  | new t args =>
    rw [expr, expr]
    exact .bind_same fun _ => (exprs_alike h).bind_const _
  | field r name t =>
    rw [expr, expr]
    exact (h r (List.mem_singleton_self _)).value.bind_const _
  | call receiver name typeArgs args ret ofValue =>
    obtain ⟨hr, hargs⟩ := List.forall_mem_append.mp h
    rw [expr, expr]
    refine (exprs_alike hargs).bind fun _ => ?_
    cases ofValue with
    | true => exact .refl _
    | false =>
      refine .bind_same fun _ => ?_
      cases receiver with
      | none => exact .refl _
      | some r => exact (asReceiver_follows (hr r (List.mem_singleton_self _)).value).bind_const _
  | funcRef receiver name signature =>
    cases receiver with
    | none =>
      rw [expr, expr]
      exact .refl _
    | some r =>
      rw [expr, expr]
      exact (asReceiver_follows (h r (List.mem_singleton_self _)).value).bind_const _
  | array t elems =>
    rw [expr, expr]
    exact (exprs_alike h).bind_const _
  | cast a t =>
    rw [expr, expr]
    exact .bind_same fun _ => (h a (List.mem_singleton_self _)).value.bind_const _
  | assign receiver name a =>
    obtain ⟨hr, ha⟩ := List.forall_mem_append.mp h
    rw [expr, expr]
    refine (ha a (List.mem_singleton_self _)).value.bind fun _ => ?_
    cases receiver with
    | none => exact .refl _
    | some r => exact (hr r (List.mem_singleton_self _)).value.bind_const _
  | stringLength a t =>
    rw [expr, expr]
    exact (h a (List.mem_singleton_self _)).value.bind_const _
  | print a =>
    rw [expr, expr]
    exact (h a (List.mem_singleton_self _)).value.bind_const _

/-- A flat expression is written alike as a statement if it is as a value, and its parts are. -/
theorem exprStmt_alike (hflat : e.isFlat) (hresolved : plain → e.isUnresolved = false)
    (hvalue : Follows plain (expr true e) (expr false e)) (h : ∀ a ∈ e.children, Alike plain a) :
    Follows plain (exprStmt true (expr true e) e) (exprStmt false (expr false e) e) := by
  cases e with
  | block _ => cases hflat
  | loop _ => cases hflat
  | conditional c t f ty =>
    simp only [Expr.children, List.forall_mem_cons] at h
    obtain ⟨hc, ht, hf, -⟩ := h
    rw [exprStmt, exprStmt]
    exact hc.value.bind fun _ => .bind_same fun _ =>
      (Follows.indented (narrowed_follows ht.stmt)).bind fun _ => .bind_same fun _ =>
      (Follows.indented hf.stmt).bind_const _
  | unresolved t =>
    rw [exprStmt, exprStmt]
    split
    · exact .of_fails (fun hp => by cases hresolved hp) Fails.throw
    · exact hvalue.bind_const _
  | _ =>
    unfold exprStmt
    exact hvalue.bind_const _

theorem lambda_alike (h : Alike plain l.body) : Follows plain (lambda true l) (lambda false l) := by
  obtain ⟨_, params, ret, body, signature, sam⟩ := l
  unfold lambda
  refine .bind_same fun _ => ?_
  extract_lets text text'
  have htext : ∀ u, Follows plain (text u) (text' u) := by
    intro u
    cases body with
    | block b =>
      obtain ⟨ss, _⟩ := b
      have hbody : Follows plain (bodyStmts true (!ret.isVoid) ss) (bodyStmts false (!ret.isVoid) ss) :=
        bodyStmts_alike (h.inner _ rfl)
      exact (Follows.detached (hbody.bind_const _)).bind_const _
    | _ =>
      unfold text text'
      dsimp only
      split
      · exact (Follows.detached (h.stmt.bind_const _)).bind_const _
      · exact h.value.bind_const _
  split
  · exact .bind_same htext
  · exact htext ()

/-! ## Declarations -/

/-- The body of a function is written alike if what stands in the function is. -/
theorem alike_body (h : ∀ x ∈ f.places v, Alike plain x.2) (he : f.body = some e) : Alike plain e := by
  obtain ⟨w, hw⟩ := FuncDecl.exists_mem_places_of_body he
  exact h _ hw

theorem nestedFunc_alike (h : ∀ x ∈ f.places v, Alike plain x.2) :
    Follows plain (nestedFunc true f) (nestedFunc false f) := by
  have hbody : ∀ e, f.body = some e → Alike plain e := fun e => alike_body h
  obtain ⟨name, params, ret, body, _, _, _, _⟩ := f
  unfold nestedFunc
  refine .bind_same fun _ => .bind_same fun _ => .bind_same fun _ => .enclosed ?_
  cases body with
  | none => exact .refl _
  | some e =>
    have he := hbody e rfl
    cases e with
    | block b =>
      obtain ⟨ss, _⟩ := b
      exact (bodyStmts_alike (he.inner _ rfl)).bind_const _
    | _ =>
      dsimp only
      split
      · exact he.stmt.bind_const _
      · exact he.value.bind_const _

theorem method_alike {owner : Option ClassKind} (h : ∀ x ∈ f.places v, Alike plain x.2) :
    Follows plain (method true owner f) (method false owner f) := by
  have hbody : ∀ e, f.body = some e → Alike plain e := fun e => alike_body h
  obtain ⟨name, params, ret, body, _, _, _, _⟩ := f
  unfold method
  refine .bind_same fun _ => ?_
  cases body with
  | none => exact .refl _
  | some e =>
    have he := hbody e rfl
    cases e with
    | block b =>
      obtain ⟨ss, _⟩ := b
      exact Follows.enclosed (bodyStmts_alike (he.inner _ rfl))
    | _ =>
      refine Follows.enclosed ?_
      split
      · exact he.stmt
      · exact he.value.bind_const _

theorem methods_alike {owner : ClassKind} {fs : List FuncDecl}
    (h : ∀ f ∈ fs, ∀ x ∈ f.places v, Alike plain x.2) :
    Follows plain (methods true owner fs) (methods false owner fs) := by
  induction fs with
  | nil =>
    rw [methods, methods]
    exact .refl _
  | cons f fs ih =>
    obtain ⟨hf, hfs⟩ := List.forall_mem_cons.mp h
    rw [methods, methods]
    exact .bind_same fun _ => (method_alike hf).bind fun _ => ih hfs

theorem supers_alike {isInterface : Bool} {above : List SuperDecl} {out : Supers}
    (h : ∀ a ∈ above, ∀ e ∈ a.args.getD [], Alike plain e) :
    Follows plain (supers true isInterface above out) (supers false isInterface above out) := by
  induction above generalizing out with
  | nil =>
    rw [supers, supers]
    exact .refl _
  | cons a above ih =>
    obtain ⟨ha, habove⟩ := List.forall_mem_cons.mp h
    obtain ⟨t, args⟩ := a
    unfold supers
    refine .bind_same fun _ => ?_
    cases args with
    | none => exact ih habove
    | some es => exact (exprs_alike ha).bind fun _ => ih habove

theorem cls_alike (h : ∀ x ∈ (Decl.cls c).places v, Alike plain x.2) :
    Follows plain (cls true c) (cls false c) := by
  obtain ⟨hargs, hfuncs⟩ := List.forall_mem_append.mp h
  obtain ⟨name, kind, params, above, fields, members, isFinal⟩ := c
  have habove : ∀ out, Follows plain (supers true (kind == .interface) above out)
      (supers false (kind == .interface) above out) := fun out =>
    supers_alike fun a ha e he =>
      hargs (v, e) (List.mem_map_of_mem (List.mem_flatMap.mpr ⟨a, ha, he⟩))
  unfold cls
  refine .bind_same fun _ => (habove _).bind fun _ => .enclosed (.bind_same fun _ => ?_)
  exact methods_alike fun f hf x hx => hfuncs x (List.mem_flatMap.mpr ⟨f, hf, hx⟩)

/-- A declaration inside a body is written alike if what stands in it is. -/
theorem localDecl_alike (h : ∀ x ∈ d.places v, Alike plain x.2) :
    Follows plain (localDecl true d) (localDecl false d) := by
  cases d with
  | var x =>
    obtain ⟨name, t, init, isFinal, inferred⟩ := x
    have hinit : Follows plain (expr true init) (expr false init) :=
      (h (v, init) (List.mem_singleton_self _)).value
    rw [localDecl, localDecl]
    split
    · exact .bind_same fun _ => hinit.bind_const _
    · exact .bind_same fun _ => hinit.bind_const _
  | func f =>
    rw [localDecl, localDecl]
    exact nestedFunc_alike h
  | cls c =>
    rw [localDecl, localDecl]
    exact cls_alike h
  | param _ | field _ | lambda _ =>
    rw [localDecl, localDecl]
    exact .refl _

/-- The statements of a block are written alike if what stands in them is. -/
theorem alikeStmt_of_places (h : ∀ x ∈ b.places v, Alike plain x.2) :
    ∀ s ∈ b.stmts, AlikeStmt plain s := by
  intro s hs
  cases s with
  | decl d =>
    refine ⟨?_, fun e he => by cases he⟩
    rw [stmt, stmt]
    exact localDecl_alike fun x hx => h x (List.mem_flatMap.mpr ⟨_, hs, hx⟩)
  | expr e =>
    have he : Alike plain e := h (_, e) (List.mem_flatMap.mpr ⟨_, hs, List.mem_singleton_self _⟩)
    refine ⟨?_, fun a ha => ?_⟩
    · rw [stmt, stmt]
      exact he.stmt
    · cases ha
      exact ⟨he.value, he.stmt⟩

/-- **An expression is written alike if what stands in it is**, unless it is a placeholder that is to
make no difference. -/
theorem alike_of_places (hresolved : plain → e.isUnresolved = false)
    (h : ∀ x ∈ e.places v, Alike plain x.2) : Alike plain e := by
  -- A flat expression is printed from its children; a block, a closure and a loop bring their
  -- statements in.
  by_cases hflat : e.isFlat
  · rw [Expr.places_of_isFlat hflat] at h
    have hparts : ∀ a ∈ e.children, Alike plain a := fun a ha => h (v, a) (List.mem_map_of_mem ha)
    have hvalue := expr_alike hflat hresolved hparts
    refine ⟨hresolved, hvalue, exprStmt_alike hflat hresolved hvalue hparts, ?_⟩
    rintro b rfl
    cases hflat
  · cases e with
    | block b =>
      have hinner := alikeStmt_of_places h
      obtain ⟨ss, _⟩ := b
      refine ⟨hresolved, ?_, ?_, fun b hb => ?_⟩
      · rw [expr, expr]
        exact .refl _
      · rw [exprStmt, exprStmt]
        exact (Follows.braced (stmts_alike hinner)).bind_const _
      · cases hb
        exact hinner
    | lambda l =>
      have hbody : Alike plain l.body :=
        h (_, l.body) (List.mem_append_right _ (List.mem_singleton_self _))
      have hvalue : Follows plain (expr true (.lambda l)) (expr false (.lambda l)) := by
        rw [expr, expr]
        exact lambda_alike hbody
      refine ⟨hresolved, hvalue, ?_, fun b hb => by cases hb⟩
      unfold exprStmt
      exact hvalue.bind_const _
    | loop x =>
      rw [show (Expr.loop x).places v = _ from x.places_eq v] at h
      obtain ⟨hhead, hbody⟩ := List.forall_mem_append.mp h
      refine ⟨hresolved, ?_, ?_, fun b hb => by cases hb⟩
      · rw [expr, expr]
        exact .refl _
      · rw [exprStmt, exprStmt]
        exact loop_alike (fun a ha => hhead (v, a) (List.mem_map_of_mem ha)) (alikeStmt_of_places hbody)
    | _ => exact absurd rfl hflat

/-! ## Programs -/

/-- A declaration of the top level is written alike if what stands in it is. -/
theorem member_alike (h : ∀ x ∈ d.places v, Alike plain x.2) :
    Follows plain (member true d) (member false d) := by
  cases d with
  | var x => exact .bind_same fun _ => (h (v, x.init) (List.mem_singleton_self _)).value.bind_const _
  | func f => exact method_alike h
  | cls c => exact cls_alike h
  | param _ | field _ | lambda _ => exact .refl _

theorem members_alike {ds : List Decl} (h : ∀ d ∈ ds, ∀ x ∈ d.places v, Alike plain x.2) :
    Follows plain (members true ds) (members false ds) := by
  induction ds with
  | nil => exact .refl _
  | cons d ds ih =>
    obtain ⟨hd, hds⟩ := List.forall_mem_cons.mp h
    cases ds with
    | nil => exact member_alike hd
    | cons => exact (member_alike hd).bind fun _ => .bind_same fun _ => ih hds

theorem declarations_alike {ds : List Decl} (h : ∀ d ∈ ds, ∀ x ∈ d.places v, Alike plain x.2) :
    Follows plain (declarations true ds) (declarations false ds) :=
  .enclosed ((members_alike fun d hd => h d (List.mem_of_mem_filter hd)).bind_const _)

end Java

end ProgramGen

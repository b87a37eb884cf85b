import ProgramGen.Proofs.Emit.Follows
import ProgramGen.Proofs.Program.Places
import ProgramGen.Emit.Kotlin

/-!
# Refused placeholders in Kotlin

A placeholder has a text that depends on where it stands: in front of a point it is cast to its type.
Strict emission fails in either place. All else is written alike if its parts are; so, by the places
of an expression, what the emitter writes follows what it writes in strict use.
-/

namespace ProgramGen

namespace Kotlin

open Emit

variable {plain : Prop} {context : Context} {e : Expr} {b : Block} {d : Decl} {f : FuncDecl} {c : ClassDecl}
variable {l : LambdaDecl} {v : Visibility} {s : Stmt} {ss : List Stmt} {es : List Expr}

/-- A statement is written alike, and so is the expression that it may be, also as a result. -/
structure AlikeStmt (plain : Prop) (context : Context) (s : Stmt) : Prop where
  stmt : Follows plain (stmt ⟨true, context⟩ s) (stmt ⟨false, context⟩ s)
  value : ∀ e, s = .expr e → Follows plain (expr ⟨true, context⟩ e) (expr ⟨false, context⟩ e)

/-- What is written of an expression follows what is written of it in strict use, and so with the
statements of a block; and it is no placeholder if `plain` holds. -/
structure Alike (plain : Prop) (context : Context) (e : Expr) : Prop where
  resolved : plain → e.isUnresolved = false
  value : Follows plain (expr ⟨true, context⟩ e) (expr ⟨false, context⟩ e)
  inner : ∀ b, e = .block b → ∀ s ∈ b.stmts, AlikeStmt plain context s

/-! ## Expressions in their places -/

theorem expr_unresolved_fails {t : Ty} : (expr ⟨true, context⟩ (.unresolved t)).Fails := by
  rw [expr]
  exact Fails.throw

theorem Alike.asReceiver (h : Alike plain context e) :
    Follows plain (asReceiver ⟨true, context⟩ e (expr ⟨true, context⟩ e))
      (asReceiver ⟨false, context⟩ e (expr ⟨false, context⟩ e)) := by
  cases e with
  | unresolved t =>
    show Follows plain (expr ⟨true, context⟩ (.unresolved t)) _
    exact .of_fails (fun hp => by cases h.resolved hp) expr_unresolved_fails
  | lambda l => exact h.value.bind_const _
  | _ => exact h.value

theorem Alike.asBranch (h : Alike plain context e) :
    Follows plain (asBranch e (expr ⟨true, context⟩ e)) (asBranch e (expr ⟨false, context⟩ e)) := by
  cases e with
  | lambda l => exact h.value.bind_const _
  | _ => exact h.value

/-! ## Lists -/

theorem exprs_alike (h : ∀ e ∈ es, Alike plain context e) :
    Follows plain (exprs ⟨true, context⟩ es) (exprs ⟨false, context⟩ es) := by
  induction es with
  | nil =>
    rw [exprs, exprs]
    exact .refl _
  | cons e es ih =>
    obtain ⟨he, hes⟩ := List.forall_mem_cons.mp h
    rw [exprs, exprs]
    exact he.value.bind fun _ => (ih hes).bind_const _

theorem stmts_alike (h : ∀ s ∈ ss, AlikeStmt plain context s) :
    Follows plain (stmts ⟨true, context⟩ ss) (stmts ⟨false, context⟩ ss) := by
  induction ss with
  | nil =>
    rw [stmts, stmts]
    exact .refl _
  | cons s ss ih =>
    obtain ⟨hs, hss⟩ := List.forall_mem_cons.mp h
    rw [stmts, stmts]
    exact hs.stmt.bind fun _ => ih hss

/-- The statements of a body, of which the last is the result if it has one. -/
theorem bodyStmts_alike {returns : Bool} (h : ∀ s ∈ ss, AlikeStmt plain context s) :
    Follows plain (bodyStmts ⟨true, context⟩ returns ss) (bodyStmts ⟨false, context⟩ returns ss) := by
  induction ss with
  | nil =>
    rw [bodyStmts, bodyStmts]
    exact .refl _
  | cons s ss ih =>
    obtain ⟨hs, hss⟩ := List.forall_mem_cons.mp h
    -- The last statement is a result if it is an expression; any other one is only a statement.
    by_cases hresult : (∃ e, s = .expr e) ∧ ss = []
    · obtain ⟨⟨e, rfl⟩, rfl⟩ := hresult
      rw [bodyStmts, bodyStmts]
      exact (hs.value e rfl).bind_const _
    · have hother : ∀ e, s = .expr e → ss ≠ [] := fun e hs hss => hresult ⟨⟨e, hs⟩, hss⟩
      rw [bodyStmts_cons hother, bodyStmts_cons hother]
      exact hs.stmt.bind fun _ => ih hss

/-! ## Expressions -/

theorem loop_alike {x : Loop} (hhead : ∀ e ∈ x.head, Alike plain context e)
    (hbody : ∀ s ∈ x.body.stmts, AlikeStmt plain context s) :
    Follows plain (loop ⟨true, context⟩ x) (loop ⟨false, context⟩ x) := by
  cases x with
  | forEach var iterable body =>
    obtain ⟨ss, _⟩ := body
    rw [loop, loop]
    exact (hhead iterable (List.mem_singleton_self _)).value.bind fun _ =>
      (Follows.braced (stmts_alike hbody)).bind_const _
  | forRange var start stop body =>
    obtain ⟨ss, _⟩ := body
    obtain ⟨hstart, hstop⟩ := List.forall_mem_cons.mp hhead
    rw [loop, loop]
    exact hstart.value.bind fun _ => (hstop stop (List.mem_singleton_self _)).value.bind fun _ =>
      (Follows.braced (stmts_alike hbody)).bind_const _
  | whileCond cond body bodyFirst =>
    obtain ⟨ss, _⟩ := body
    rw [loop, loop]
    exact (hhead cond (List.mem_singleton_self _)).value.bind fun _ =>
      (Follows.braced (stmts_alike hbody)).bind_const _

/-- The text of a branch: the statements of a block stand in the braces of the conditional. -/
def branchText (k : Settings) : Expr → Emit String
  | .block ⟨ss, _⟩ => Emit.braced "" (stmts k ss)
  | e => asBranch e (expr k e)

theorem expr_conditional (k : Settings) (c t f : Expr) (ty : Ty) :
    expr k (.conditional c t f ty) = (do
      let cond ← expr k c
      let onTrue ← branchText k t
      let onFalse ← branchText k f
      return "(if (" ++ cond ++ ") " ++ onTrue ++ " else " ++ onFalse ++ ")") := by
  rw [expr]
  refine congrArg _ (funext fun cond => ?_)
  extract_lets onTrueDone
  have hdone : onTrueDone = fun onTrue => branchText k f >>= fun onFalse =>
      (pure ("(if (" ++ cond ++ ") " ++ onTrue ++ " else " ++ onFalse ++ ")") : Emit String) := by
    funext onTrue
    cases f with
    | block b =>
      cases b
      rfl
    | _ => rfl
  rw [hdone]
  cases t with
  | block b =>
    cases b
    rfl
  | _ => rfl

theorem Alike.branchText (h : Alike plain context e) :
    Follows plain (branchText ⟨true, context⟩ e) (branchText ⟨false, context⟩ e) := by
  cases e with
  | block b =>
    -- The statements are written without the block, so it does not help that the block is alike.
    obtain ⟨ss, _⟩ := b
    exact Follows.braced (stmts_alike (h.inner _ rfl))
  | _ => exact h.asBranch

/-- A flat expression is written alike if its parts are. -/
theorem expr_alike (hflat : e.isFlat) (hresolved : plain → e.isUnresolved = false)
    (h : ∀ a ∈ e.children, Alike plain context a) :
    Follows plain (expr ⟨true, context⟩ e) (expr ⟨false, context⟩ e) := by
  -- The strict printer differs on an unresolved expression alone; every other case follows from its
  -- parts.
  cases e with
  | block _ => cases hflat
  | lambda _ => cases hflat
  | loop _ => cases hflat
  | unresolved t => exact .of_fails (fun hp => by cases hresolved hp) expr_unresolved_fails
  | const literal t | var name t | instanceOf var target t | step name op =>
    rw [expr, expr]
    exact .refl _
  | conditional c t f ty =>
    simp only [Expr.children, List.forall_mem_cons] at h
    obtain ⟨hc, ht, hf, -⟩ := h
    rw [expr_conditional, expr_conditional]
    exact hc.value.bind fun _ => ht.branchText.bind fun _ => hf.branchText.bind_const _
  | logical op l r ty | equality op l r ty | comparison op l r ty =>
    simp only [Expr.children, List.forall_mem_cons] at h
    obtain ⟨hl, hr, -⟩ := h
    rw [expr, expr]
    exact .binary hl.value hr.value
  | arith op l r ty cast =>
    simp only [Expr.children, List.forall_mem_cons] at h
    obtain ⟨hl, hr, -⟩ := h
    rw [expr, expr]
    exact (Follows.binary hl.value hr.value).bind_const _
  | new t args =>
    rw [expr, expr]
    exact (exprs_alike h).bind_const _
  | field r name t =>
    rw [expr, expr]
    exact (h r (List.mem_singleton_self _)).asReceiver.bind_const _
  | call receiver name typeArgs args ret ofValue =>
    obtain ⟨hr, hargs⟩ := List.forall_mem_append.mp h
    rw [expr, expr]
    refine (exprs_alike hargs).bind fun _ => ?_
    cases receiver with
    | none => exact .refl _
    | some r => exact (hr r (List.mem_singleton_self _)).asReceiver.bind_const _
  | funcRef receiver name signature =>
    cases receiver with
    | none =>
      rw [expr, expr]
      exact .refl _
    | some r =>
      rw [expr, expr]
      exact (h r (List.mem_singleton_self _)).asReceiver.bind_const _
  | array t elems =>
    rw [expr, expr]
    exact (exprs_alike h).bind_const _
  | cast a t =>
    rw [expr, expr]
    exact (h a (List.mem_singleton_self _)).value.bind_const _
  | assign receiver name a =>
    obtain ⟨hr, ha⟩ := List.forall_mem_append.mp h
    rw [expr, expr]
    refine (ha a (List.mem_singleton_self _)).value.bind fun _ => ?_
    cases receiver with
    | none => exact .refl _
    | some r => exact (hr r (List.mem_singleton_self _)).asReceiver.bind_const _
  | stringLength a t =>
    rw [expr, expr]
    exact (h a (List.mem_singleton_self _)).asReceiver.bind_const _
  | print a =>
    rw [expr, expr]
    exact (h a (List.mem_singleton_self _)).value.bind_const _

theorem lambda_alike (h : Alike plain context l.body) :
    Follows plain (lambda ⟨true, context⟩ l) (lambda ⟨false, context⟩ l) := by
  obtain ⟨_, params, ret, body, signature, sam⟩ := l
  unfold lambda
  cases body with
  | block b =>
    obtain ⟨ss, _⟩ := b
    exact (Follows.braced (stmts_alike (h.inner _ rfl))).bind_const _
  | _ => exact h.value.bind_const _

/-! ## Declarations -/

theorem params_alike {ps : List ParamDecl} (h : ∀ e ∈ defaults ps, Alike plain context e) :
    Follows plain (params ⟨true, context⟩ ps) (params ⟨false, context⟩ ps) := by
  induction ps with
  | nil =>
    rw [params, params]
    exact .refl _
  | cons p ps ih =>
    obtain ⟨name, t, value⟩ := p
    unfold params
    cases value with
    | none => exact (ih h).bind_const _
    | some e =>
      obtain ⟨he, hps⟩ := List.forall_mem_cons.mp h
      exact he.value.bind fun _ => (ih hps).bind_const _

theorem func_alike {owner : Option ClassKind} (h : ∀ x ∈ f.places v, Alike plain context x.2) :
    Follows plain (func ⟨true, context⟩ owner f) (func ⟨false, context⟩ owner f) := by
  have hparams : Follows plain (params ⟨true, context⟩ f.params) (params ⟨false, context⟩ f.params) :=
    params_alike fun e he => h _ (FuncDecl.mem_places_of_default he)
  have hbody : ∀ e, f.body = some e → Alike plain context e := fun e he => by
    obtain ⟨w, hw⟩ := FuncDecl.exists_mem_places_of_body he
    exact h _ hw
  obtain ⟨name, ps, ret, body, kind, typeParams, isFinal, isOverride⟩ := f
  unfold func
  extract_lets f done done'
  have hdone : ∀ texts, Follows plain (done texts) (done' texts) := by
    intro texts
    cases body with
    | none => exact .refl _
    | some e =>
      have he := hbody e rfl
      cases e with
      | block b =>
        obtain ⟨ss, _⟩ := b
        exact Follows.enclosed (bodyStmts_alike (he.inner _ rfl))
      | _ => exact he.value.bind_const _
  by_cases hentry : isEntry kind name = true
  · rw [if_pos hentry, if_pos hentry]
    exact .bind_same hdone
  · rw [if_neg hentry, if_neg hentry]
    exact hparams.bind hdone

theorem funcs_alike {owner : ClassKind} {fs : List FuncDecl}
    (h : ∀ f ∈ fs, ∀ x ∈ f.places v, Alike plain context x.2) :
    Follows plain (funcs ⟨true, context⟩ owner fs) (funcs ⟨false, context⟩ owner fs) := by
  induction fs with
  | nil =>
    rw [funcs, funcs]
    exact .refl _
  | cons f fs ih =>
    obtain ⟨hf, hfs⟩ := List.forall_mem_cons.mp h
    rw [funcs, funcs]
    exact .bind_same fun _ => (func_alike hf).bind fun _ => ih hfs

theorem supers_alike {above : List SuperDecl}
    (h : ∀ a ∈ above, ∀ e ∈ a.args.getD [], Alike plain context e) :
    Follows plain (supers ⟨true, context⟩ above) (supers ⟨false, context⟩ above) := by
  induction above with
  | nil =>
    rw [supers, supers]
    exact .refl _
  | cons a above ih =>
    obtain ⟨ha, habove⟩ := List.forall_mem_cons.mp h
    obtain ⟨t, args⟩ := a
    unfold supers
    cases args with
    | none => exact (ih habove).bind_const _
    | some es => exact (exprs_alike ha).bind fun _ => (ih habove).bind_const _

theorem cls_alike (hsupers : ∀ e ∈ c.superArgs, Alike plain context e)
    (hfuncs : ∀ f ∈ c.funcs, ∀ x ∈ f.places v, Alike plain context x.2) :
    Follows plain (cls ⟨true, context⟩ c) (cls ⟨false, context⟩ c) := by
  obtain ⟨name, kind, typeParams, above, fields, members, isFinal⟩ := c
  have habove : Follows plain (supers ⟨true, context⟩ above) (supers ⟨false, context⟩ above) :=
    supers_alike fun a ha e he => hsupers e (List.mem_flatMap.mpr ⟨a, ha, he⟩)
  unfold cls
  refine habove.bind fun texts => ?_
  cases members with
  | nil => exact .refl _
  | cons f fs =>
    obtain ⟨hf, hfs⟩ := List.forall_mem_cons.mp hfuncs
    exact Follows.enclosed ((func_alike hf).bind fun _ => funcs_alike hfs)

theorem decl_alike (h : ∀ x ∈ d.places v, Alike plain context x.2) :
    Follows plain (decl ⟨true, context⟩ d) (decl ⟨false, context⟩ d) := by
  cases d with
  | var x =>
    obtain ⟨name, t, init, isFinal, inferred⟩ := x
    rw [decl, decl]
    exact (h _ (List.mem_singleton_self _)).value.bind_const _
  | func f =>
    rw [decl, decl]
    exact func_alike h
  | cls c =>
    rw [decl, decl]
    obtain ⟨hsupers, hfuncs⟩ := List.forall_mem_append.mp h
    exact cls_alike (fun e he => hsupers (v, e) (List.mem_map_of_mem he)) fun f hf x hx =>
      hfuncs x (List.mem_flatMap.mpr ⟨f, hf, hx⟩)
  | param _ | field _ | lambda _ =>
    rw [decl, decl]
    exact .refl _

/-- The statements of a block are written alike if what stands in them is. -/
theorem alikeStmt_of_places (h : ∀ x ∈ b.places v, Alike plain context x.2) :
    ∀ s ∈ b.stmts, AlikeStmt plain context s := by
  intro s hs
  cases s with
  | decl d =>
    refine ⟨?_, fun e he => by cases he⟩
    rw [stmt, stmt]
    exact decl_alike fun x hx => h x (List.mem_flatMap.mpr ⟨_, hs, hx⟩)
  | expr e =>
    have he : Alike plain context e :=
      h (_, e) (List.mem_flatMap.mpr ⟨_, hs, List.mem_singleton_self _⟩)
    refine ⟨?_, fun a ha => ?_⟩
    · rw [stmt, stmt]
      exact he.value.bind_const _
    · cases ha
      exact he.value

/-- **An expression is written alike if what stands in it is**, unless it is a placeholder that is to
make no difference. -/
theorem alike_of_places (hresolved : plain → e.isUnresolved = false)
    (h : ∀ x ∈ e.places v, Alike plain context x.2) : Alike plain context e := by
  by_cases hflat : e.isFlat
  · rw [Expr.places_of_isFlat hflat] at h
    refine ⟨hresolved, expr_alike hflat hresolved fun a ha => h (v, a) (List.mem_map_of_mem ha), ?_⟩
    rintro b rfl
    cases hflat
  · cases e with
    | block b =>
      have hinner := alikeStmt_of_places h
      obtain ⟨ss, _⟩ := b
      refine ⟨hresolved, ?_, fun b hb => ?_⟩
      · rw [expr, expr]
        exact (Follows.braced (stmts_alike hinner)).bind_const _
      · cases hb
        exact hinner
    | lambda l =>
      have hbody : Alike plain context l.body :=
        h (_, l.body) (List.mem_append_right _ (List.mem_singleton_self _))
      refine ⟨hresolved, ?_, fun b hb => by cases hb⟩
      rw [expr, expr]
      exact lambda_alike hbody
    | loop x =>
      rw [show (Expr.loop x).places v = _ from x.places_eq v] at h
      obtain ⟨hhead, hbody⟩ := List.forall_mem_append.mp h
      refine ⟨hresolved, ?_, fun b hb => by cases hb⟩
      rw [expr, expr]
      exact loop_alike (fun a ha => hhead (v, a) (List.mem_map_of_mem ha)) (alikeStmt_of_places hbody)
    | _ => exact absurd rfl hflat

/-- Programs are written alike if what stands in their declarations is. -/
theorem declarations_alike {ds : List Decl} (h : ∀ d ∈ ds, ∀ x ∈ d.places v, Alike plain context x.2) :
    Follows plain (declarations ⟨true, context⟩ ds) (declarations ⟨false, context⟩ ds) :=
  .forM fun d hd => .bind_same fun _ => decl_alike (h d (List.mem_of_mem_filter hd))

end Kotlin

end ProgramGen

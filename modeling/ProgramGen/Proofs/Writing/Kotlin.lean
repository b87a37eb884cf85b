import ProgramGen.Proofs.Emit.KotlinStrict
import ProgramGen.Proofs.Writing.Page

/-!
# What the emitter of Kotlin leaves of a page

Function types are written as they are in Kotlin, so that nothing has to be noted for them. Loops have no
value, but are texts like other expressions; only statements and declarations extend the text of a page.
-/

namespace ProgramGen

namespace Kotlin

open Emit

variable {γ : Narrowings} {k : Settings} {e : Expr}

/-- What the emitter leaves of a page at an expression, and at the statements of a block. -/
structure ExprLeaves (k : Settings) (γ : Narrowings) (e : Expr) : Prop where
  value : Leaves .kept γ [] (expr k e)
  block : ∀ ss isFuncBody, e = .block ⟨ss, isFuncBody⟩ →
    Leaves .extended γ [] (stmts k ss) ∧ ∀ returns, Leaves .extended γ [] (bodyStmts k returns ss)

theorem ExprLeaves.of_value (hother : ∀ b, e ≠ .block b) (h : Leaves .kept γ [] (expr k e)) : ExprLeaves k γ e :=
  ⟨h, fun _ _ heq => absurd heq (hother _)⟩

/-! ## Expressions in their places -/

theorem asReceiver_leaves {text : Emit String} (h : Leaves .kept γ [] text) :
    Leaves .kept γ [] (asReceiver k e text) := by
  unfold asReceiver
  split
  · split
    · exact h
    · exact .pure
  · exact h.use fun _ => .pure
  · exact h

theorem asBranch_leaves {text : Emit String} (h : Leaves .kept γ [] text) :
    Leaves .kept γ [] (asBranch e text) := by
  unfold asBranch
  split
  · exact h.use fun _ => .pure
  · exact h

theorem branchText_leaves (h : ExprLeaves k γ e) : Leaves .kept γ [] (branchText k e) := by
  unfold branchText
  split
  · exact .braced (h.block _ _ rfl).1
  · exact asBranch_leaves h.value

theorem lambda_leaves {l : LambdaDecl} (h : ExprLeaves k γ l.body) : Leaves .kept γ [] (lambda k l) := by
  obtain ⟨name, params, ret, body, signature, sam⟩ := l
  unfold lambda
  cases body with
  | block b =>
    obtain ⟨ss, isFuncBody⟩ := b
    exact (Leaves.braced (h.block ss isFuncBody rfl).1).use fun _ => .pure
  | _ => exact h.value.use fun _ => .pure

theorem func_leaves {f : FuncDecl} {owner : Option ClassKind} (hparams : Leaves .kept γ [] (params k f.params))
    (hbody : ∀ body, f.body = some body → ExprLeaves k γ body) : Leaves .extended γ [] (func k owner f) := by
  obtain ⟨name, ps, ret, body, kind, typeParams, isFinal, isOverride⟩ := f
  unfold func
  extract_lets f done
  have hdone : ∀ texts, Leaves .extended γ [] (done texts) := by
    intro texts
    cases body with
    | none => exact .line
    | some e =>
      have he := hbody e rfl
      cases e with
      | block b =>
        obtain ⟨ss, isFuncBody⟩ := b
        exact .enclosed ((he.block ss isFuncBody rfl).2 _)
      | _ => exact he.value.use fun _ => .line
  split
  · exact Leaves.pure.use hdone
  · exact hparams.use hdone

/-! ## The emitter -/

mutual

theorem expr_leaves : ∀ e : Expr, ExprLeaves k γ e
  | .unresolved t => .of_value nofun <| by
    rw [expr]
    split
    · exact .throw
    · exact .pure
  | .const literal t | .var name t | .instanceOf x target t | .step name op => .of_value nofun <| by
    rw [expr]
    exact .pure
  | .block ⟨ss, isFuncBody⟩ => by
    have hss : Leaves .extended γ [] (stmts k ss) := stmts_leaves ss
    refine ⟨?_, fun _ _ heq => by cases heq; exact ⟨hss, bodyStmts_leaves ss⟩⟩
    rw [expr]
    exact (Leaves.braced hss).use fun _ => .pure
  | .conditional c t f ty => .of_value nofun <| by
    rw [expr_conditional]
    exact (expr_leaves c).value.use fun _ => (branchText_leaves (expr_leaves t)).use fun _ =>
      (branchText_leaves (expr_leaves f)).use fun _ => .pure
  | .logical op l r t | .equality op l r t | .comparison op l r t => .of_value nofun <| by
    rw [expr]
    exact .binary (expr_leaves l).value (expr_leaves r).value
  | .arith op l r t cast => .of_value nofun <| by
    rw [expr]
    exact (Leaves.binary (expr_leaves l).value (expr_leaves r).value).use fun _ => .pure
  | .new t args => .of_value nofun <| by
    rw [expr]
    exact (exprs_leaves args).use fun _ => .pure
  | .field r name t => .of_value nofun <| by
    rw [expr]
    exact (asReceiver_leaves (expr_leaves r).value).use fun _ => .pure
  | .call none name typeArgs args ret ofValue => .of_value nofun <| by
    rw [expr]
    exact (exprs_leaves args).use fun _ => .pure
  | .call (some r) name typeArgs args ret ofValue => .of_value nofun <| by
    rw [expr]
    exact (exprs_leaves args).use fun _ => (asReceiver_leaves (expr_leaves r).value).use fun _ => .pure
  | .funcRef none name signature => .of_value nofun <| by
    rw [expr]
    exact .pure
  | .funcRef (some r) name signature => .of_value nofun <| by
    rw [expr]
    exact (asReceiver_leaves (expr_leaves r).value).use fun _ => .pure
  | .lambda ⟨name, params, ret, body, signature, sam⟩ => .of_value nofun <| by
    have hbody : ExprLeaves k γ body := expr_leaves body
    rw [expr]
    exact lambda_leaves hbody
  | .array t elems => .of_value nofun <| by
    rw [expr]
    exact (exprs_leaves elems).use fun _ => .pure
  | .cast v t | .print v => .of_value nofun <| by
    rw [expr]
    exact (expr_leaves v).value.use fun _ => .pure
  | .assign none name v => .of_value nofun <| by
    rw [expr]
    exact (expr_leaves v).value.use fun _ => .pure
  | .assign (some r) name v => .of_value nofun <| by
    rw [expr]
    exact (expr_leaves v).value.use fun _ => (asReceiver_leaves (expr_leaves r).value).use fun _ => .pure
  | .loop l => .of_value nofun <| by
    rw [expr]
    exact loop_leaves l
  | .stringLength v t => .of_value nofun <| by
    rw [expr]
    exact (asReceiver_leaves (expr_leaves v).value).use fun _ => .pure

theorem exprs_leaves : ∀ es : List Expr, Leaves .kept γ [] (exprs k es)
  | [] => by
    rw [exprs]
    exact .pure
  | e :: es => by
    rw [exprs]
    exact (expr_leaves e).value.use fun _ => (exprs_leaves es).use fun _ => .pure

theorem loop_leaves : ∀ l : Loop, Leaves .kept γ [] (loop k l)
  | .forEach x iterable ⟨ss, isFuncBody⟩ => by
    rw [loop]
    exact (expr_leaves iterable).value.use fun _ => (Leaves.braced (stmts_leaves ss)).use fun _ => .pure
  | .forRange x start stop ⟨ss, isFuncBody⟩ => by
    rw [loop]
    exact (expr_leaves start).value.use fun _ => (expr_leaves stop).value.use fun _ =>
      (Leaves.braced (stmts_leaves ss)).use fun _ => .pure
  | .whileCond cond ⟨ss, isFuncBody⟩ bodyFirst => by
    rw [loop]
    exact (expr_leaves cond).value.use fun _ => (Leaves.braced (stmts_leaves ss)).use fun _ => .pure

theorem stmt_leaves : ∀ s : Stmt, Leaves .extended γ [] (stmt k s)
  | .decl d => by
    rw [stmt]
    exact decl_leaves d
  | .expr e => by
    rw [stmt]
    exact (expr_leaves e).value.use fun _ => .line

theorem stmts_leaves : ∀ ss : List Stmt, Leaves .extended γ [] (stmts k ss)
  | [] => by
    rw [stmts]
    exact .pure
  | s :: ss => by
    rw [stmts]
    exact (stmt_leaves s).before fun _ => stmts_leaves ss

theorem bodyStmts_leaves : ∀ (ss : List Stmt) (returns : Bool), Leaves .extended γ [] (bodyStmts k returns ss)
  | [], _ => by
    rw [bodyStmts]
    exact .pure
  | [.expr e], _ => by
    rw [bodyStmts]
    exact (expr_leaves e).value.use fun _ => .line
  | .decl d :: ss, returns => by
    rw [bodyStmts_cons (by simp)]
    exact (stmt_leaves (.decl d)).before fun _ => bodyStmts_leaves ss returns
  | .expr e :: s :: ss, returns => by
    rw [bodyStmts_cons (by simp)]
    exact (stmt_leaves (.expr e)).before fun _ => bodyStmts_leaves (s :: ss) returns

theorem decl_leaves : ∀ d : Decl, Leaves .extended γ [] (decl k d)
  | .var ⟨name, t, init, isFinal, inferred⟩ => by
    rw [decl]
    exact (expr_leaves init).value.use fun _ => .line
  | .func f => by
    rw [decl]
    exact method_leaves none f
  | .cls c => by
    rw [decl]
    exact cls_leaves c
  | .param _ | .field _ | .lambda _ => by
    rw [decl]
    exact .pure

theorem params_leaves : ∀ ps : List ParamDecl, Leaves .kept γ [] (params k ps)
  | [] => by
    rw [params]
    exact .pure
  | ⟨name, t, none⟩ :: ps => by
    unfold params
    exact Leaves.pure.use fun _ => (params_leaves ps).use fun _ => .pure
  | ⟨name, t, some e⟩ :: ps => by
    unfold params
    exact (expr_leaves e).value.use fun _ => (params_leaves ps).use fun _ => .pure

theorem method_leaves (owner : Option ClassKind) : ∀ f : FuncDecl, Leaves .extended γ [] (func k owner f)
  | ⟨name, ps, ret, none, kind, typeParams, isFinal, isOverride⟩ =>
    func_leaves (params_leaves ps) nofun
  | ⟨name, ps, ret, some e, kind, typeParams, isFinal, isOverride⟩ =>
    func_leaves (params_leaves ps) fun _ heq => by cases heq; exact expr_leaves e

theorem methods_leaves (owner : ClassKind) : ∀ fs : List FuncDecl, Leaves .extended γ [] (funcs k owner fs)
  | [] => by
    rw [funcs]
    exact .pure
  | f :: fs => by
    rw [funcs]
    exact Leaves.blank.before fun _ => (method_leaves (some owner) f).before fun _ => methods_leaves owner fs

theorem supers_leaves : ∀ above : List SuperDecl, Leaves .kept γ [] (supers k above)
  | [] => by
    rw [supers]
    exact .pure
  | ⟨t, none⟩ :: above => by
    unfold supers
    exact Leaves.pure.use fun _ => (supers_leaves above).use fun _ => .pure
  | ⟨t, some es⟩ :: above => by
    unfold supers
    exact (exprs_leaves es).use fun _ => (supers_leaves above).use fun _ => .pure

theorem cls_leaves : ∀ c : ClassDecl, Leaves .extended γ [] (cls k c)
  | ⟨name, kind, typeParams, above, fields, [], isFinal⟩ => by
    unfold cls
    exact (supers_leaves above).use fun _ => .line
  | ⟨name, kind, typeParams, above, fields, f :: fs, isFinal⟩ => by
    unfold cls
    exact (supers_leaves above).use fun _ => .enclosed ((method_leaves (some kind) f).before fun _ =>
      methods_leaves kind fs)

end

/-! ## Programs -/

theorem declarations_leaves (ds : List Decl) : Leaves .extended γ [] (declarations k ds) :=
  .forM fun d => Leaves.blank.before fun _ => decl_leaves d

end Kotlin

end ProgramGen

import ProgramGen.Proofs.Emit.Agrees
import ProgramGen.Proofs.Generated.Trees

/-!
# Smart casts in Java

While the branch is written in which a test narrows a variable, the page has the narrowing, and what
does not narrow leaves it there. So an expression in a place under tests is written as the expression
with the casts written out; by induction on the tree, along with the emitter.
-/

namespace ProgramGen

namespace Java

open Emit

variable {γ : Narrowings} {strict : Bool} {e body : Expr} {s : Stmt} {ss : List Stmt} {es : List Expr} {t : Ty}

/-! ## Types and headers -/

theorem useArities_keeps {ns : List Nat} : AgreeUnder γ (useArities ns) (useArities ns) := .modify fun _ => rfl

theorem type_keeps : AgreeUnder γ (type t) (type t) := useArities_keeps.bind fun _ => .pure

theorem typeArg_keeps : AgreeUnder γ (typeArg t) (typeArg t) := useArities_keeps.bind fun _ => .pure

theorem exactType_keeps : AgreeUnder γ (exactType t) (exactType t) := useArities_keeps.bind fun _ => .pure

theorem rawType_keeps : AgreeUnder γ (rawType t) (rawType t) := by
  unfold rawType
  split <;> exact useArities_keeps.bind fun _ => .pure

theorem returnType_keeps : AgreeUnder γ (returnType t) (returnType t) := by
  unfold returnType
  split
  · exact .pure
  · exact type_keeps

theorem typeParams_keeps {ps : List TypeParam} : AgreeUnder γ (typeParams ps) (typeParams ps) := by
  refine .bind (.mapM fun p => ?_) fun _ => .pure
  unfold typeParam
  split
  · exact typeArg_keeps.bind fun _ => .pure
  · exact .pure

theorem callTypeArgs_keeps {ts : List Ty} : AgreeUnder γ (callTypeArgs ts) (callTypeArgs ts) :=
  .bind (.mapM fun _ => exactType_keeps) fun _ => .pure

theorem paramList_keeps {params : List (String × Ty)} : AgreeUnder γ (paramList params) (paramList params) :=
  .bind (.mapM fun _ => type_keeps.bind fun _ => .pure) fun _ => .pure

theorem methodHeader_keeps {f : FuncDecl} {owner : Option ClassKind} :
    AgreeUnder γ (methodHeader f owner) (methodHeader f owner) :=
  typeParams_keeps.bind fun _ => returnType_keeps.bind fun _ =>
    .bind (.mapM fun _ => type_keeps.bind fun _ => .pure) fun _ => .pure

theorem classFields_keeps {name : String} {isInterface : Bool} {fields : List FieldDecl}
    {superArgs : Option String} :
    AgreeUnder γ (classFields name isInterface fields superArgs)
      (classFields name isInterface fields superArgs) := by
  unfold classFields
  refine .bind (.forM fun _ => type_keeps.bind fun _ => .line) fun _ => ?_
  split
  · extract_lets assigned constructor
    have hassigned : ∀ u, AgreeUnder γ (assigned u) (assigned u) := fun u => .forM fun _ => .line
    have hconstructor : ∀ u, AgreeUnder γ (constructor u) (constructor u) := fun u => by
      refine paramList_keeps.bind fun _ => .enclosed ?_
      split
      · exact AgreeUnder.line.bind hassigned
      · exact hassigned ()
    split
    · exact AgreeUnder.blank.bind hconstructor
    · exact hconstructor ()
  · exact .pure

/-! ## Expressions in their places -/

/-- Where a condition holds the page narrows what the condition narrows, besides. -/
theorem narrowed_agree {α : Type} {c : Expr} {x y : Emit α} (h : AgreeUnder (c.narrowing ++ γ) x y) :
    AgreeUnder γ (narrowed c x) (narrowed (c.withCasts γ) y) := by
  cases c with
  | instanceOf var target t =>
    intro p hp
    obtain ⟨hrun, hcasts⟩ := h { p with casts := (var, target) :: p.casts } (by rw [hp]; rfl)
    have hnarrowed : ∀ z : Emit α, (narrowed (.instanceOf var target t) z).runOn p =
        ((z.runOn { p with casts := (var, target) :: p.casts }).1,
          { (z.runOn { p with casts := (var, target) :: p.casts }).2 with
            casts := (z.runOn { p with casts := (var, target) :: p.casts }).2.casts.tail }) := fun _ => rfl
    rw [Expr.withCasts, hnarrowed, hnarrowed, hrun]
    exact ⟨rfl, by rw [hcasts]; rfl⟩
  | var name t =>
    rw [Expr.withCasts, Narrowings.use]
    split <;> exact h
  | _ => exact h

/-- The use of a variable is written as the cast that its innermost narrowing is. -/
theorem variableText_use {name : String} :
    AgreeUnder γ (variableText name) (expr strict (γ.use name t)) := by
  intro p hp
  have hget : (get : Emit Page).runOn p = (.ok p, p) := rfl
  cases hfind : γ.find? (·.1 == name) with
  | none =>
    have htext : (variableText name).runOn p = (pure name : Emit String).runOn p := by
      unfold variableText
      rw [runOn_bind, hget]
      dsimp only
      rw [hp, hfind]
    rw [htext, Narrowings.use, hfind, expr]
    exact ⟨rfl, hp⟩
  | some c =>
    have htext : (variableText name).runOn p =
        (do return "((" ++ (← type c.2) ++ ") " ++ name ++ ")" : Emit String).runOn p := by
      unfold variableText
      rw [runOn_bind, hget]
      dsimp only
      rw [hp, hfind]
    have hcast : AgreeUnder γ (do return "((" ++ (← type c.2) ++ ") " ++ name ++ ")" : Emit String)
        (expr strict (.cast (.const name t) c.2)) := by
      rw [expr, expr]
      exact type_keeps.bind fun _ => .pure
    rw [htext, Narrowings.use, hfind]
    exact hcast p hp

theorem variableText_keeps {name : String} : AgreeUnder γ (variableText name) (variableText name) :=
  .get fun p _ => by
    split
    · exact type_keeps.bind fun _ => .pure
    · exact .pure

theorem asReceiver_agree {x y : Emit String} (h : AgreeUnder γ x y) :
    AgreeUnder γ (asReceiver e x) (asReceiver (e.withCasts γ) y) := by
  cases e with
  | arith op l r t cast =>
    rw [Expr.withCasts]
    unfold asReceiver
    dsimp only
    split
    · exact type_keeps.bind fun _ => h.bind fun _ => .pure
    · exact h
  | var name t =>
    rw [Expr.withCasts, Narrowings.use]
    split <;> exact h
  | _ => exact h

theorem funcRefText_keeps {receiver name : String} :
    AgreeUnder γ (funcRefText receiver name t) (funcRefText receiver name t) := by
  refine useArities_keeps.bind fun _ => ?_
  split
  · split
    · exact paramList_keeps.bind fun _ => .pure
    · exact .pure
  · exact .pure

theorem arrayText_keeps {values : List String} : AgreeUnder γ (arrayText t values) (arrayText t values) := by
  unfold arrayText
  extract_lets elem elem'
  clear_value elem'
  split
  · exact exactType_keeps.bind fun _ => .pure
  · split
    · exact type_keeps.bind fun _ => .pure
    · exact exactType_keeps.bind fun _ => rawType_keeps.bind fun _ => .pure
    · exact exactType_keeps.bind fun _ => .pure

/-! ## Bodies -/

/-- What is written of an expression agrees with what is written of it with the casts written out: as a
value and as a statement; and so do the statements of a block, with or without a result. -/
structure CastsAgree (strict : Bool) (γ : Narrowings) (e : Expr) : Prop where
  value : AgreeUnder γ (expr strict e) (expr strict (e.withCasts γ))
  stmt : AgreeUnder γ (exprStmt strict (expr strict e) e)
    (exprStmt strict (expr strict (e.withCasts γ)) (e.withCasts γ))
  block : ∀ ss isFuncBody, e = .block ⟨ss, isFuncBody⟩ → ∀ returns,
    AgreeUnder γ (bodyStmts strict returns ss) (bodyStmts strict returns (Stmt.allWithCasts γ ss))

/-- Most expressions are written as statements by way of their values. -/
theorem CastsAgree.of_value (hother : match e with
      | .block _ | .conditional .. | .loop _ | .unresolved _ => False
      | _ => True)
    (h : AgreeUnder γ (expr strict e) (expr strict (e.withCasts γ))) : CastsAgree strict γ e := by
  refine ⟨h, ?_, ?_⟩
  · cases e with
    | block _ | conditional _ _ _ _ | loop _ | unresolved _ => exact hother.elim
    | var name t =>
      rw [Expr.withCasts, Narrowings.use] at *
      split at h <;> exact h.bind fun _ => .line
    | _ =>
      rw [Expr.withCasts] at *
      unfold exprStmt
      exact h.bind fun _ => .line
  · rintro ss isFuncBody rfl
    exact hother.elim

theorem withCasts_ne_block (h : ∀ b, body ≠ .block b) : ∀ b, body.withCasts γ ≠ .block b := by
  intro b
  cases body with
  | block b => exact absurd rfl (h b)
  | var name t =>
    rw [Expr.withCasts, Narrowings.use]
    split <;> exact Expr.noConfusion
  | _ => exact Expr.noConfusion

theorem optionalLine_keeps {p : Prop} [Decidable p] {text : String} :
    AgreeUnder γ (if p then Emit.line text else pure ()) (if p then Emit.line text else pure ()) := by
  split
  · exact .line
  · exact .pure

theorem lambda_agree {l : LambdaDecl} (h : CastsAgree strict γ l.body) :
    AgreeUnder γ (lambda strict l) (lambda strict (l.withCasts γ)) := by
  obtain ⟨name, params, ret, body, signature, sam⟩ := l
  rw [LambdaDecl.withCasts]
  -- The lines of a body stand on a page of their own, which narrows the same variables.
  have hclosure : ∀ {x y : Emit Unit} {ps : String}, AgreeUnder γ x y →
      AgreeUnder γ
        (do return "(" ++ ps ++ ") -> \x7b\n" ++ (← Emit.detached x) ++ (← Emit.pad) ++ "\x7d" : Emit String)
        (do return "(" ++ ps ++ ") -> \x7b\n" ++ (← Emit.detached y) ++ (← Emit.pad) ++ "\x7d") := fun h =>
    h.detached.bind fun _ => AgreeUnder.pad.bind fun _ => .pure
  by_cases hblock : ∃ b, body = .block b
  · obtain ⟨⟨ss, isFuncBody⟩, rfl⟩ := hblock
    have hss := h.block ss isFuncBody rfl
    rw [Expr.withCasts, Block.withCasts]
    unfold lambda
    refine paramList_keeps.bind fun _ => ?_
    extract_lets text text'
    have htext : ∀ u, AgreeUnder γ (text u) (text' u) := fun _ =>
      hclosure ((hss _).bind fun _ => optionalLine_keeps)
    split
    · exact useArities_keeps.bind htext
    · exact htext ()
  · have hother : ∀ b, body ≠ .block b := not_exists.mp hblock
    rw [lambda_of_ne_block hother, lambda_of_ne_block (withCasts_ne_block hother)]
    refine paramList_keeps.bind fun _ => ?_
    extract_lets text text'
    have htext : ∀ u, AgreeUnder γ (text u) (text' u) := by
      intro u
      unfold text text'
      split
      · exact hclosure (h.stmt.bind fun _ => optionalLine_keeps)
      · exact h.value.bind fun _ => .pure
    split
    · exact useArities_keeps.bind htext
    · exact htext ()

theorem nestedFunc_agree {f : FuncDecl} (h : ∀ body, f.body = some body → CastsAgree strict γ body) :
    AgreeUnder γ (nestedFunc strict f) (nestedFunc strict (f.withCasts γ)) := by
  obtain ⟨name, params, ret, _ | body, kind, typeParams, isFinal, isOverride⟩ := f <;>
    rw [FuncDecl.withCasts, Expr.optionWithCasts]
  · unfold nestedFunc
    exact useArities_keeps.bind fun _ => .bind (.mapM fun _ => typeArg_keeps) fun _ =>
      paramList_keeps.bind fun _ => .enclosed .throw
  · have hbody := h body rfl
    by_cases hblock : ∃ b, body = .block b
    · obtain ⟨⟨ss, isFuncBody⟩, rfl⟩ := hblock
      have hss := hbody.block ss isFuncBody rfl
      rw [Expr.withCasts, Block.withCasts]
      unfold nestedFunc
      exact useArities_keeps.bind fun _ => .bind (.mapM fun _ => typeArg_keeps) fun _ =>
        paramList_keeps.bind fun _ => .enclosed ((hss _).bind fun _ => optionalLine_keeps)
    · have hother : ∀ b, body ≠ .block b := not_exists.mp hblock
      rw [nestedFunc_of_ne_block rfl hother, nestedFunc_of_ne_block rfl (withCasts_ne_block hother)]
      refine useArities_keeps.bind fun _ => .bind (.mapM fun _ => typeArg_keeps) fun _ =>
        paramList_keeps.bind fun _ => .enclosed ?_
      split
      · exact hbody.stmt.bind fun _ => .line
      · exact hbody.value.bind fun _ => .line

theorem method_agree {f : FuncDecl} {owner : Option ClassKind}
    (h : ∀ body, f.body = some body → CastsAgree strict γ body) :
    AgreeUnder γ (method strict owner f) (method strict owner (f.withCasts γ)) := by
  -- A header says whether there is a body, but not which.
  have hheader : methodHeader (f.withCasts γ) owner = methodHeader f owner := by
    obtain ⟨name, params, ret, _ | body, kind, typeParams, isFinal, isOverride⟩ := f <;> rfl
  obtain ⟨name, params, ret, _ | body, kind, typeParams, isFinal, isOverride⟩ := f <;>
    rw [FuncDecl.withCasts, Expr.optionWithCasts] at *
  · unfold method
    exact methodHeader_keeps.bind fun _ => .line
  · have hbody := h body rfl
    by_cases hblock : ∃ b, body = .block b
    · obtain ⟨⟨ss, isFuncBody⟩, rfl⟩ := hblock
      have hss := hbody.block ss isFuncBody rfl
      rw [Expr.withCasts, Block.withCasts]
      unfold method
      exact AgreeUnder.bind methodHeader_keeps fun _ => .enclosed (hss _)
    · have hother : ∀ b, body ≠ .block b := not_exists.mp hblock
      rw [method_of_ne_block rfl hother, method_of_ne_block rfl (withCasts_ne_block hother), hheader]
      refine methodHeader_keeps.bind fun _ => .enclosed ?_
      split
      · exact hbody.stmt
      · exact hbody.value.bind fun _ => .line

/-- An expression that records its type itself has one type with and without the casts written out. -/
theorem ty?_withCasts (hvar : ∀ name t, e ≠ .var name t) (hblock : ∀ b, e ≠ .block b) :
    (e.withCasts γ).ty? = e.ty? := by
  cases e with
  | var name t => exact absurd rfl (hvar name t)
  | block b => exact absurd rfl (hblock b)
  | lambda l =>
    obtain ⟨name, params, ret, body, signature, sam⟩ := l
    rfl
  | _ => rfl

/-! ## The emitter -/

mutual

theorem expr_agree : ∀ (e : Expr) (γ : Narrowings), CastsAgree strict γ e
  | .unresolved t, γ => by
    have hvalue : AgreeUnder γ (expr strict (.unresolved t)) (expr strict (.unresolved t)) := by
      rw [expr]
      split
      · exact type_keeps.bind fun _ => .throw
      · exact exactType_keeps.bind fun _ => .pure
    refine ⟨hvalue, ?_, fun _ _ heq => by cases heq⟩
    rw [Expr.withCasts, exprStmt]
    split
    · split
      · exact .throw
      · exact .pure
    · exact hvalue.bind fun _ => .line
  | .const literal t, γ => .of_value trivial <| by
    rw [Expr.withCasts, expr]
    exact .pure
  | .var name t, γ => .of_value trivial <| by
    rw [Expr.withCasts, expr]
    exact variableText_use
  | .block ⟨ss, isFuncBody⟩, γ => by
    refine ⟨?_, ?_, ?_⟩
    · rw [Expr.withCasts, expr, expr]
      exact .throw
    · rw [Expr.withCasts, Block.withCasts, exprStmt, exprStmt]
      exact (AgreeUnder.braced (stmts_agree ss γ)).bind fun _ => .line
    · intro ss' _ heq returns
      cases heq
      exact bodyStmts_agree ss γ returns
  | .conditional c t f ty, γ => by
    have hc := expr_agree c γ
    have ht := expr_agree t (c.narrowing ++ γ)
    have hf := expr_agree f γ
    refine ⟨?_, ?_, fun _ _ heq => by cases heq⟩
    · rw [Expr.withCasts, expr, expr]
      exact hc.value.bind fun _ => (narrowed_agree ht.value).bind fun _ => hf.value.bind fun _ => .pure
    · rw [Expr.withCasts, exprStmt, exprStmt]
      exact hc.value.bind fun _ => AgreeUnder.line.bind fun _ =>
        (AgreeUnder.indented (narrowed_agree ht.stmt)).bind fun _ => AgreeUnder.line.bind fun _ =>
        (AgreeUnder.indented hf.stmt).bind fun _ => .line
  | .instanceOf x target t, γ => .of_value trivial <| by
    rw [Expr.withCasts, expr]
    exact rawType_keeps.bind fun _ => .pure
  | .logical op l r t, γ => .of_value trivial <| by
    rw [Expr.withCasts, expr, expr]
    exact .binary (expr_agree l γ).value (expr_agree r γ).value
  | .equality op l r t, γ => .of_value trivial <| by
    rw [Expr.withCasts, expr, expr]
    exact .binary (expr_agree l γ).value (expr_agree r γ).value
  | .comparison op l r t, γ => .of_value trivial <| by
    rw [Expr.withCasts, expr, expr]
    exact .binary (expr_agree l γ).value (expr_agree r γ).value
  | .arith op l r t cast, γ => .of_value trivial <| by
    rw [Expr.withCasts, expr, expr]
    exact (AgreeUnder.binary (expr_agree l γ).value (expr_agree r γ).value).bind fun _ => .pure
  | .new t args, γ => .of_value trivial <| by
    rw [Expr.withCasts, expr, expr]
    exact exactType_keeps.bind fun _ => (exprs_agree args γ).bind fun _ => .pure
  | .field r name t, γ => .of_value trivial <| by
    rw [Expr.withCasts, expr, expr]
    exact (expr_agree r γ).value.bind fun _ => .pure
  | .call none name typeArgs args ret ofValue, γ => .of_value trivial <| by
    rw [Expr.withCasts, Expr.optionWithCasts, expr, expr]
    refine (exprs_agree args γ).bind fun _ => ?_
    split
    · exact variableText_keeps.bind fun _ => .pure
    · exact callTypeArgs_keeps.bind fun _ => .pure
  | .call (some r) name typeArgs args ret ofValue, γ => .of_value trivial <| by
    rw [Expr.withCasts, Expr.optionWithCasts, expr, expr]
    refine (exprs_agree args γ).bind fun _ => ?_
    split
    · exact variableText_keeps.bind fun _ => .pure
    · exact callTypeArgs_keeps.bind fun _ => (asReceiver_agree (expr_agree r γ).value).bind fun _ => .pure
  | .funcRef none name signature, γ => .of_value trivial <| by
    rw [Expr.withCasts, Expr.optionWithCasts, expr]
    exact funcRefText_keeps
  | .funcRef (some r) name signature, γ => .of_value trivial <| by
    rw [Expr.withCasts, Expr.optionWithCasts, expr, expr]
    exact (asReceiver_agree (expr_agree r γ).value).bind fun _ => funcRefText_keeps
  | .lambda ⟨name, params, ret, body, signature, sam⟩, γ => .of_value trivial <| by
    have hbody := expr_agree body γ
    rw [Expr.withCasts, expr, expr]
    exact lambda_agree hbody
  | .array t elems, γ => .of_value trivial <| by
    rw [Expr.withCasts, expr, expr]
    exact (exprs_agree elems γ).bind fun _ => arrayText_keeps
  | .cast v t, γ => .of_value trivial <| by
    rw [Expr.withCasts, expr, expr]
    exact type_keeps.bind fun _ => (expr_agree v γ).value.bind fun _ => .pure
  | .assign none name v, γ => .of_value trivial <| by
    rw [Expr.withCasts, Expr.optionWithCasts, expr, expr]
    exact (expr_agree v γ).value.bind fun _ => .pure
  | .assign (some r) name v, γ => .of_value trivial <| by
    rw [Expr.withCasts, Expr.optionWithCasts, expr, expr]
    exact (expr_agree v γ).value.bind fun _ => (expr_agree r γ).value.bind fun _ => .pure
  | .step name op, γ => .of_value trivial <| by
    rw [Expr.withCasts, expr]
    exact .pure
  | .loop l, γ => by
    refine ⟨?_, ?_, fun _ _ heq => by cases heq⟩
    · rw [Expr.withCasts, expr, expr]
      exact .throw
    · rw [Expr.withCasts, exprStmt, exprStmt]
      exact loop_agree l γ
  | .stringLength v t, γ => .of_value trivial <| by
    rw [Expr.withCasts, expr, expr]
    exact (expr_agree v γ).value.bind fun _ => .pure
  | .print v, γ => .of_value trivial <| by
    rw [Expr.withCasts, expr, expr]
    exact (expr_agree v γ).value.bind fun _ => .pure

theorem exprs_agree : ∀ (es : List Expr) (γ : Narrowings),
    AgreeUnder γ (exprs strict es) (exprs strict (Expr.allWithCasts γ es))
  | [], γ => by
    rw [Expr.allWithCasts, exprs]
    exact .pure
  | e :: es, γ => by
    rw [Expr.allWithCasts, exprs, exprs]
    exact (expr_agree e γ).value.bind fun _ => (exprs_agree es γ).bind fun _ => .pure

theorem loop_agree : ∀ (l : Loop) (γ : Narrowings), AgreeUnder γ (loop strict l) (loop strict (l.withCasts γ))
  | .forEach x iterable ⟨ss, isFuncBody⟩, γ => by
    have hiterable := (expr_agree iterable γ).value
    have hbody : AgreeUnder γ (Emit.braced "" (stmts strict ss))
        (Emit.braced "" (stmts strict (Stmt.allWithCasts γ ss))) :=
      .braced (stmts_agree ss γ)
    by_cases hvar : ∃ name t, iterable = .var name t
    · obtain ⟨name, t, rfl⟩ := hvar
      rw [Loop.withCasts, Block.withCasts, loop, loop, expr]
      exact exactType_keeps.bind fun _ => variableText_keeps.bind fun _ => hbody.bind fun _ => .line
    by_cases hblock : ∃ b, iterable = .block b
    · obtain ⟨b, rfl⟩ := hblock
      rw [Loop.withCasts, Block.withCasts, loop, loop, expr]
      exact exactType_keeps.bind fun _ => AgreeUnder.throw.bind fun _ => hbody.bind fun _ => .line
    · have hvar : ∀ name t, iterable ≠ .var name t := fun name t h => hvar ⟨name, t, h⟩
      have hblock : ∀ b, iterable ≠ .block b := not_exists.mp hblock
      rw [Loop.withCasts, Block.withCasts, loop, loop, ty?_withCasts hvar hblock]
      · exact exactType_keeps.bind fun _ => hiterable.bind fun _ => hbody.bind fun _ => .line
      · exact hvar
      · exact hblock
  | .forRange x start stop ⟨ss, isFuncBody⟩, γ => by
    rw [Loop.withCasts, Block.withCasts, loop, loop]
    exact (expr_agree start γ).value.bind fun _ => (expr_agree stop γ).value.bind fun _ =>
      (AgreeUnder.braced (stmts_agree ss γ)).bind fun _ => .line
  | .whileCond cond ⟨ss, isFuncBody⟩ bodyFirst, γ => by
    rw [Loop.withCasts, Block.withCasts, loop, loop]
    exact (expr_agree cond γ).value.bind fun _ => (AgreeUnder.braced (stmts_agree ss γ)).bind fun _ => .line

theorem stmt_agree : ∀ (s : Stmt) (γ : Narrowings), AgreeUnder γ (stmt strict s) (stmt strict (s.withCasts γ))
  | .decl d, γ => by
    rw [Stmt.withCasts, stmt, stmt]
    exact localDecl_agree d γ
  | .expr e, γ => by
    rw [Stmt.withCasts, stmt, stmt]
    exact (expr_agree e γ).stmt

theorem stmts_agree : ∀ (ss : List Stmt) (γ : Narrowings),
    AgreeUnder γ (stmts strict ss) (stmts strict (Stmt.allWithCasts γ ss))
  | [], γ => by
    rw [Stmt.allWithCasts, stmts]
    exact .pure
  | s :: ss, γ => by
    rw [Stmt.allWithCasts, stmts, stmts]
    exact (stmt_agree s γ).bind fun _ => stmts_agree ss γ

theorem bodyStmts_agree : ∀ (ss : List Stmt) (γ : Narrowings) (returns : Bool),
    AgreeUnder γ (bodyStmts strict returns ss) (bodyStmts strict returns (Stmt.allWithCasts γ ss))
  | [], γ, _ => by
    rw [Stmt.allWithCasts, bodyStmts]
    exact .pure
  | [.expr e], γ, _ => by
    rw [Stmt.allWithCasts, Stmt.allWithCasts, Stmt.withCasts, bodyStmts, bodyStmts]
    split
    · exact (expr_agree e γ).value.bind fun _ => .line
    · exact (expr_agree e γ).stmt
  | .decl d :: ss, γ, returns => by
    rw [Stmt.allWithCasts, bodyStmts_cons (by simp), bodyStmts_cons (by simp [Stmt.withCasts])]
    exact (stmt_agree (.decl d) γ).bind fun _ => bodyStmts_agree ss γ returns
  | .expr e :: s :: ss, γ, returns => by
    have hss := bodyStmts_agree (s :: ss) γ returns
    rw [Stmt.allWithCasts] at hss ⊢
    rw [Stmt.allWithCasts, bodyStmts_cons (by simp), bodyStmts_cons (s := (Stmt.expr e).withCasts γ) (by simp)]
    exact (stmt_agree (.expr e) γ).bind fun _ => hss

theorem localDecl_agree : ∀ (d : Decl) (γ : Narrowings),
    AgreeUnder γ (localDecl strict d) (localDecl strict (d.withCasts γ))
  | .var ⟨name, t, init, isFinal, inferred⟩, γ => by
    rw [Decl.withCasts, localDecl, localDecl]
    split
    · exact AgreeUnder.pure.bind fun _ => (expr_agree init γ).value.bind fun _ => .line
    · exact type_keeps.bind fun _ => (expr_agree init γ).value.bind fun _ => .line
  | .func f, γ => by
    rw [Decl.withCasts, localDecl, localDecl]
    exact nestedFunc_agree (func_agree f γ)
  | .cls c, γ => by
    rw [Decl.withCasts, localDecl, localDecl]
    exact cls_agree c γ
  | .param _, γ => by
    rw [Decl.withCasts, localDecl]
    exact .pure
  | .field _, γ => by
    rw [Decl.withCasts, localDecl]
    exact .pure
  | .lambda _, γ => by
    rw [Decl.withCasts, localDecl, localDecl]
    exact .pure

theorem func_agree : ∀ (f : FuncDecl) (γ : Narrowings) (body : Expr), f.body = some body →
    CastsAgree strict γ body
  | ⟨_, _, _, some e, _, _, _, _⟩, γ, _, rfl => expr_agree e γ

theorem methods_agree {owner : ClassKind} : ∀ (fs : List FuncDecl) (γ : Narrowings),
    AgreeUnder γ (methods strict owner fs) (methods strict owner (FuncDecl.allWithCasts γ fs))
  | [], γ => by
    rw [FuncDecl.allWithCasts, methods]
    exact .pure
  | f :: fs, γ => by
    rw [FuncDecl.allWithCasts, methods, methods]
    exact AgreeUnder.blank.bind fun _ => (method_agree (func_agree f γ)).bind fun _ => methods_agree fs γ

theorem supers_agree {isInterface : Bool} : ∀ (above : List SuperDecl) (γ : Narrowings) (out : Supers),
    AgreeUnder γ (supers strict isInterface above out)
      (supers strict isInterface (SuperDecl.allWithCasts γ above) out)
  | [], γ, _ => by
    rw [SuperDecl.allWithCasts, supers]
    exact .pure
  | ⟨t, none⟩ :: above, γ, _ => by
    rw [SuperDecl.allWithCasts, supers, supers]
    exact type_keeps.bind fun _ => supers_agree above γ _
  | ⟨t, some args⟩ :: above, γ, _ => by
    rw [SuperDecl.allWithCasts, supers, supers]
    exact type_keeps.bind fun _ => (exprs_agree args γ).bind fun _ => supers_agree above γ _

theorem cls_agree : ∀ (c : ClassDecl) (γ : Narrowings), AgreeUnder γ (cls strict c) (cls strict (c.withCasts γ))
  | ⟨name, kind, typeParams, above, fields, funcs, isFinal⟩, γ => by
    rw [ClassDecl.withCasts, cls, cls]
    exact typeParams_keeps.bind fun _ => (supers_agree above γ _).bind fun _ =>
      .enclosed (classFields_keeps.bind fun _ => methods_agree funcs γ)

end

/-! ## Programs -/

theorem member_agree : ∀ (d : Decl) (γ : Narrowings),
    AgreeUnder γ (member strict d) (member strict (d.withCasts γ))
  | .var ⟨name, t, init, isFinal, inferred⟩, γ => by
    rw [Decl.withCasts]
    exact type_keeps.bind fun _ => (expr_agree init γ).value.bind fun _ => .line
  | .func f, γ => by
    rw [Decl.withCasts]
    exact method_agree (func_agree f γ)
  | .cls c, γ => by
    rw [Decl.withCasts]
    exact cls_agree c γ
  | .param _, γ | .field _, γ | .lambda _, γ => by
    rw [Decl.withCasts]
    exact .pure

theorem members_agree (ds : List Decl) (γ : Narrowings) :
    AgreeUnder γ (members strict ds) (members strict (ds.map (Decl.withCasts γ))) := by
  induction ds with
  | nil => exact .pure
  | cons d ds ih =>
    cases ds with
    | nil => exact member_agree d γ
    | cons => exact (member_agree d γ).bind fun _ => AgreeUnder.blank.bind fun _ => ih

theorem kind_withCasts (d : Decl) : (d.withCasts γ).kind = d.kind := by
  cases d with
  | var v => cases v; rfl
  | _ => rfl

theorem declarations_agree (ds : List Decl) (γ : Narrowings) :
    AgreeUnder γ (declarations strict ds) (declarations strict (ds.map (Decl.withCasts γ))) := by
  have hmembers : (ds.map (Decl.withCasts γ)).filter (fun d => d.kind != .lambda) =
      (ds.filter fun d => d.kind != .lambda).map (Decl.withCasts γ) := by
    rw [List.filter_map]
    congr 2
    funext d
    simp only [Function.comp, kind_withCasts]
  unfold declarations
  rw [hmembers]
  refine .enclosed ((members_agree _ γ).bind fun _ => .get fun p _ => ?_)
  split
  · exact .pure
  · exact AgreeUnder.blank.bind fun _ => .forM fun _ => .line

end Java

open Emit

/-- **Smart casts are casts in Java**: the text of a program is that of the program in which each use of a
variable is cast to the target of the innermost test that has the use in its true branch. -/
theorem Program.source_withCasts {p : Program} (strict : Bool) (h : p.language = .java) :
    p.withCasts.source strict = p.source strict := by
  have htop : p.withCasts.topLevel = p.topLevel.map (Decl.withCasts []) := by
    show (Context.scope (Context.set _ _ _) _).decls = _
    rw [Context.scope_set_self]
    rfl
  have hemit : AgreeUnder [] (p.emit strict) (p.withCasts.emit strict) := by
    have hlanguage : p.withCasts.language = .java := h
    unfold emit
    rw [h, hlanguage, htop]
    exact Java.declarations_agree p.topLevel []
  unfold source
  rw [(hemit .blank rfl).1]

/-- **The casts of a generated program are those of its tests.** -/
theorem Source.casts_written (seed : UInt64) (config : Config) :
    (Source.ofSeed seed .java).Generates config .java fun p => ∀ strict, p.withCasts.source strict = p.source strict :=
  Source.generates seed config .java fun _ hs strict => Program.source_withCasts strict hs.language

end ProgramGen

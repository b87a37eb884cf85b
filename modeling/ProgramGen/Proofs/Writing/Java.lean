import ProgramGen.Proofs.Writing.Arities
import ProgramGen.Proofs.Writing.Page

/-!
# What the emitter of Java leaves of a page

Expressions keep the text of a page, statements and declarations extend it, and all of them note the
function interfaces that their uses need; by induction on the tree, along with the emitter. A test narrows
a variable on the page while its branch is written, and so it does for the uses in the branch.
-/

namespace ProgramGen

namespace Java

open Emit

variable {α : Type} {c : TextChange} {γ : Narrowings} {us : List Use} {strict : Bool} {e body : Expr} {t u : Ty}
variable {k n : Nat} {ns ms : List Nat}

/-- A type that needs no interface might as well not be used. -/
theorem noted_type_of_nil (h : arities t = []) : Noted [.type t] n ↔ Noted [] n := by
  rw [noted_cons, Use.arities, h, or_iff_right List.not_mem_nil]

/-! ## Types and headers -/

theorem useArities_leaves (u : Use) : Leaves c γ [u] (useArities u.arities) := by
  refine .modify (fun p => ⟨.refl c _, rfl, rfl, fun n hn => ?_, ascending_foldl_insertArity⟩) fun p n => ?_
  · exact mem_foldl_insertArity.mpr (.inl hn)
  · rw [noted_singleton]
    exact mem_foldl_insertArity

theorem type_leaves : Leaves c γ [.type t] (type t) := (useArities_leaves (.type t)).done fun _ => .pure

theorem typeArg_leaves : Leaves c γ [.type t] (typeArg t) := (useArities_leaves (.type t)).done fun _ => .pure

theorem exactType_leaves : Leaves c γ [.type t] (exactType t) := (useArities_leaves (.type t)).done fun _ => .pure

theorem rawType_leaves : Leaves c γ [.erased t] (rawType t) := by
  unfold rawType
  split
  · rename_i d args
    exact (useArities_leaves (.erased (.applied d args))).done fun _ => .pure
  · rename_i hother
    cases t with
    | applied d args => exact absurd rfl (hother d args)
    | _ => exact (useArities_leaves (.erased _)).done fun _ => .pure

theorem returnType_leaves : Leaves c γ [.type t] (returnType t) := by
  unfold returnType
  split
  · rename_i hvoid
    exact Leaves.pure.congr fun n => (noted_type_of_nil (arities_of_isVoid hvoid)).symm
  · exact type_leaves

theorem typeParams_leaves {ps : List TypeParam} : Leaves c γ (ps.flatMap TypeParam.uses) (typeParams ps) := by
  refine Leaves.done (.mapM fun p => ?_) fun _ => .pure
  unfold typeParam TypeParam.uses
  split
  · rename_i b hb
    rw [hb]
    exact typeArg_leaves.done fun _ => .pure
  · rename_i hb
    rw [hb]
    exact .pure

theorem callTypeArgs_leaves {ts : List Ty} : Leaves c γ (ts.map .type) (callTypeArgs ts) :=
  Leaves.done (.mapM_each fun _ => exactType_leaves) fun _ => .pure

theorem paramList_leaves {params : List (String × Ty)} :
    Leaves c γ (params.map fun p => .type p.2) (paramList params) :=
  Leaves.done (.mapM_each fun _ => type_leaves.done fun _ => .pure) fun _ => .pure

/-- The parameters of a function or closure. -/
theorem paramList_leaves_uses {ps : List ParamDecl} :
    Leaves c γ (ps.map ParamDecl.uses) (paramList (ps.map fun p => (p.name, p.ty))) := by
  have h : Leaves c γ ((ps.map fun p => (p.name, p.ty)).map fun p => .type p.2) (paramList _) := paramList_leaves
  rwa [List.map_map] at h

theorem methodHeader_leaves {f : FuncDecl} {owner : Option ClassKind} :
    Leaves c γ (f.typeParams.flatMap TypeParam.uses ++ .type f.ret :: f.params.map ParamDecl.uses)
      (methodHeader f owner) :=
  typeParams_leaves.bind fun _ => returnType_leaves.bind fun _ =>
    Leaves.done (.mapM_each fun _ => type_leaves.done fun _ => .pure) fun _ => .pure

theorem classFields_leaves {name : String} {isInterface : Bool} {fields : List FieldDecl}
    {superArgs : Option String} :
    Leaves .extended γ (fields.map fun f => .type f.ty) (classFields name isInterface fields superArgs) := by
  unfold classFields
  -- The constructor writes the types of the fields once more.
  refine Leaves.bind_within (.forM_each fun _ => type_leaves.done fun _ => .line) fun _ => ?_
  split
  · extract_lets assigned constructor
    have hassigned : ∀ u, Leaves .extended γ [] (assigned u) := fun u => .forM fun _ => .line
    have hconstructor : ∀ u, Leaves .extended γ (fields.map fun f => .type f.ty) (constructor u) := fun u => by
      have hparams : Leaves .kept γ ((fields.map fun f => (f.name, f.ty)).map fun p => .type p.2) (paramList _) :=
        paramList_leaves
      rw [List.map_map] at hparams
      refine hparams.use fun _ => .enclosed ?_
      split
      · exact Leaves.line.before hassigned
      · exact hassigned ()
    refine ⟨fields.map fun f => .type f.ty, ?_, fun n => id⟩
    split
    · exact Leaves.blank.before hconstructor
    · exact hconstructor ()
  · exact ⟨[], .pure, fun n h => absurd h noted_nil⟩

/-! ## Expressions in their places -/

/-- While a condition holds, the page narrows what the condition narrows, besides. -/
theorem narrowed_leaves {cond : Expr} {x : Emit α} (h : Leaves c (cond.narrowing ++ γ) us x) :
    Leaves c γ us (narrowed cond x) := by
  cases cond with
  | instanceOf var target t =>
    exact h.onPage (fun p => { p with casts := (var, target) :: p.casts })
      (fun _ r => (r.1, { r.2 with casts := r.2.casts.tail })) (fun p hp => by rw [hp]; rfl) (fun _ => rfl)
      (fun p r hr => { hr with casts := by rw [hr.casts]; rfl }) fun _ _ b hb => ⟨⟨b, hb⟩, rfl⟩
  | _ => exact h

theorem variableText_leaves {name : String} : Leaves c γ (γ.uses name) (variableText name) := by
  refine .get fun p hp => ?_
  rw [hp, Narrowings.uses]
  cases γ.find? (·.1 == name) with
  | some narrowed => exact type_leaves.done fun _ => .pure
  | none => exact .pure

theorem asReceiver_leaves {text : Emit String} (h : Leaves .kept γ us text) :
    Leaves .kept γ us (asReceiver e text) := by
  unfold asReceiver
  split
  · split
    · -- The name of an unboxed type needs nothing.
      rename_i op l r t cast hname
      have hnone : arities t = [] := by
        refine arities_of_builtinKind ?_
        rw [unboxedName?] at hname
        cases hkind : t.builtinKind? with
        | none => rw [hkind] at hname; cases hname
        | some => rfl
      exact (type_leaves.congr fun n => noted_type_of_nil hnone).before fun _ => h.done fun _ => .pure
    · exact h
  · exact h

theorem funcRefText_leaves {receiver name : String} :
    Leaves .kept γ [.signature t] (funcRefText receiver name t) := by
  refine (useArities_leaves (.signature t)).bind_within fun _ => ?_
  split
  · rename_i types ret hparts
    split
    · -- The parameters of the closure around a function without result.
      refine ⟨_, paramList_leaves.done fun _ => .pure, fun n hn => ?_⟩
      obtain ⟨_, hu, hn⟩ := hn
      obtain ⟨_, hp, rfl⟩ := List.mem_map.mp hu
      obtain ⟨i, hi, rfl⟩ := List.mem_mapIdx.mp hp
      exact noted_singleton.mpr (arities_of_functionSignature? hparts (List.getElem_mem hi) hn)
    · exact ⟨[], .pure, fun n h => absurd h noted_nil⟩
  · exact ⟨[], .pure, fun n h => absurd h noted_nil⟩

theorem arrayText_leaves {values : List String} :
    Leaves .kept γ [.type (elementType t)] (arrayText t values) := by
  unfold arrayText
  extract_lets elem elem'
  split
  · exact exactType_leaves.done fun _ => .pure
  · have hbounds : ∀ n, Noted [.type elem'] n ↔ Noted [.type (elementType t)] n := fun n => by
      rw [noted_singleton, noted_singleton, Use.arities, Use.arities,
        show arities elem' = arities (elementType t) from arities_withoutWildcards _]
    clear_value elem'
    refine Leaves.congr ?_ hbounds
    split
    · exact type_leaves.done fun _ => .pure
    · exact exactType_leaves.bind_within fun _ => ⟨_, rawType_leaves.done fun _ => .pure, fun n hn => by
        rw [noted_singleton] at hn ⊢
        exact arities_erased hn⟩
    · exact exactType_leaves.done fun _ => .pure

/-! ## Bodies -/

/-- What the emitter leaves of a page at an expression, as a value and as a statement, and at the statements
of a block, with or without a result. -/
structure ExprLeaves (strict : Bool) (γ : Narrowings) (e : Expr) : Prop where
  value : Leaves .kept γ (e.uses γ) (expr strict e)
  stmt : Leaves .extended γ (e.uses γ) (exprStmt strict (expr strict e) e)
  block : ∀ ss isFuncBody, e = .block ⟨ss, isFuncBody⟩ → ∀ returns,
    Leaves .extended γ (Stmt.allUses γ ss) (bodyStmts strict returns ss)

/-- Most expressions are written as statements by way of their values. -/
theorem ExprLeaves.of_value (hother : match e with
      | .block _ | .conditional .. | .loop _ | .unresolved _ => False
      | _ => True)
    (h : Leaves .kept γ (e.uses γ) (expr strict e)) : ExprLeaves strict γ e := by
  refine ⟨h, ?_, ?_⟩
  · cases e with
    | block _ | conditional _ _ _ _ | loop _ | unresolved _ => exact hother.elim
    | _ =>
      unfold exprStmt
      exact h.use fun _ => .line
  · rintro ss isFuncBody rfl
    exact hother.elim

theorem optionalLine_leaves {p : Prop} [Decidable p] {text : String} :
    Leaves .extended γ [] (if p then Emit.line text else pure ()) := by
  split
  · exact .line
  · exact .pure

/-- What is noted for a closure besides its parameters and its body. -/
theorem signature_leaves {signature : Ty} {sam : Option Ty} {rest : Unit → Emit String}
    (h : ∀ u, Leaves .kept γ us (rest u)) :
    Leaves .kept γ ((if sam.isNone then [.signature signature] else []) ++ us)
      (if sam.isNone then useArities (arities signature) >>= rest else rest ()) := by
  split
  · exact (useArities_leaves (.signature signature)).bind h
  · exact h ()

theorem lambda_leaves {l : LambdaDecl} (h : ExprLeaves strict γ l.body) :
    Leaves .kept γ (l.uses γ) (lambda strict l) := by
  obtain ⟨name, params, ret, body, signature, sam⟩ := l
  -- The lines of a body stand on a page of their own.
  have hclosure : ∀ {x : Emit Unit} {ps : String}, Leaves .extended γ (body.uses γ) x →
      Leaves .kept γ (body.uses γ)
        (do return "(" ++ ps ++ ") -> \x7b\n" ++ (← Emit.detached x) ++ (← Emit.pad) ++ "\x7d" : Emit String) :=
    fun h => h.detached.use fun _ => Leaves.pad.before fun _ => .pure
  rw [LambdaDecl.uses]
  by_cases hblock : ∃ b, body = .block b
  · obtain ⟨⟨ss, isFuncBody⟩, rfl⟩ := hblock
    have hss := h.block ss isFuncBody rfl
    rw [Expr.uses] at hclosure ⊢
    unfold lambda
    exact paramList_leaves_uses.bind fun _ => signature_leaves fun _ =>
      hclosure ((hss _).done fun _ => optionalLine_leaves)
  · rw [lambda_of_ne_block (not_exists.mp hblock)]
    refine paramList_leaves_uses.bind fun _ => signature_leaves fun _ => ?_
    dsimp only
    split
    · exact hclosure (h.stmt.done fun _ => optionalLine_leaves)
    · exact h.value.use fun _ => .pure

/-- The header of a function inside a body, in front of what is written of the body. -/
theorem nestedHeader_leaves {params : List ParamDecl} {ret : Ty} {rest : List String → String → Emit Unit}
    (h : ∀ args named, Leaves .extended γ us (rest args named)) :
    Leaves .extended γ (.nested params.length :: .type ret :: (params.map ParamDecl.uses ++ us)) (do
      useArities [params.length]
      let args ← (params.map (·.ty) ++ [ret]).mapM typeArg
      let named ← paramList (params.map fun p => (p.name, p.ty))
      rest args named) := by
  refine ((useArities_leaves (.nested params.length)).bind fun _ =>
    Leaves.bind (.mapM_each fun _ => typeArg_leaves) fun args =>
      paramList_leaves_uses.bind fun named => h args named).congr fun n => ?_
  -- The types of the parameters are written twice, as arguments and at the parameters.
  have hparams : (params.map (·.ty)).map Use.type = params.map ParamDecl.uses := List.map_map
  simp only [List.map_append, hparams, List.map_cons, List.map_nil, noted_append, noted_cons, noted_nil, or_false]
  grind

theorem nestedFunc_leaves {f : FuncDecl} (h : ∀ body, f.body = some body → ExprLeaves strict γ body) :
    Leaves .extended γ (f.nestedUses γ) (nestedFunc strict f) := by
  obtain ⟨name, params, ret, _ | body, kind, typeParams, isFinal, isOverride⟩ := f <;>
    rw [FuncDecl.nestedUses, Expr.optionUses]
  · unfold nestedFunc
    exact nestedHeader_leaves fun _ _ => .enclosed .throw
  · have hbody := h body rfl
    by_cases hblock : ∃ b, body = .block b
    · obtain ⟨⟨ss, isFuncBody⟩, rfl⟩ := hblock
      have hss := hbody.block ss isFuncBody rfl
      rw [Expr.uses]
      unfold nestedFunc
      exact nestedHeader_leaves fun _ _ => .enclosed ((hss _).done fun _ => optionalLine_leaves)
    · rw [nestedFunc_of_ne_block rfl (not_exists.mp hblock)]
      refine nestedHeader_leaves fun _ _ => .enclosed ?_
      split
      · exact hbody.stmt.done fun _ => .line
      · exact hbody.value.use fun _ => .line

theorem method_leaves {f : FuncDecl} {owner : Option ClassKind}
    (h : ∀ body, f.body = some body → ExprLeaves strict γ body) :
    Leaves .extended γ (f.uses γ) (method strict owner f) := by
  obtain ⟨name, params, ret, body, kind, typeParams, isFinal, isOverride⟩ := f
  have hheader : Leaves .extended γ
      (typeParams.flatMap TypeParam.uses ++ .type ret :: params.map ParamDecl.uses)
      (methodHeader ⟨name, params, ret, body, kind, typeParams, isFinal, isOverride⟩ owner) :=
    methodHeader_leaves (f := ⟨name, params, ret, body, kind, typeParams, isFinal, isOverride⟩)
  obtain _ | body := body <;> rw [FuncDecl.uses, Expr.optionUses]
  · unfold method
    exact hheader.bind fun _ => .line
  · have hbody := h body rfl
    by_cases hblock : ∃ b, body = .block b
    · obtain ⟨⟨ss, isFuncBody⟩, rfl⟩ := hblock
      have hss := hbody.block ss isFuncBody rfl
      rw [Expr.uses]
      unfold method
      exact hheader.bind fun _ => .enclosed (hss _)
    · rw [method_of_ne_block rfl (not_exists.mp hblock)]
      refine hheader.bind fun _ => .enclosed ?_
      split
      · exact hbody.stmt
      · exact hbody.value.use fun _ => .line

/-! ## The emitter -/

mutual

theorem expr_leaves : ∀ (e : Expr) (γ : Narrowings), ExprLeaves strict γ e
  | .unresolved t, γ => by
    have hvalue : Leaves .kept γ [.type t] (expr strict (.unresolved t)) := by
      rw [expr]
      split
      · exact type_leaves.bind_within fun _ => ⟨[], .throw, fun n hn => absurd hn noted_nil⟩
      · exact exactType_leaves.use fun _ => .pure
    refine ⟨hvalue, ?_, fun _ _ heq => by cases heq⟩
    rw [Expr.uses, exprStmt]
    split
    · -- A placeholder for nothing is not written, and its type would need nothing.
      rename_i hvoid
      split
      · exact .throw
      · exact Leaves.pure.congr fun n => (noted_type_of_nil (arities_of_isVoid hvoid)).symm
    · exact hvalue.use fun _ => .line
  | .const literal t, γ => .of_value trivial <| by
    rw [Expr.uses, expr]
    exact .pure
  | .var name t, γ => .of_value trivial <| by
    rw [Expr.uses, expr]
    exact variableText_leaves
  | .block ⟨ss, isFuncBody⟩, γ => by
    refine ⟨?_, ?_, ?_⟩
    · rw [expr]
      exact .throw
    · rw [Expr.uses, exprStmt]
      exact (Leaves.braced (stmts_leaves ss γ)).use fun _ => .line
    · intro ss' _ heq returns
      cases heq
      exact bodyStmts_leaves ss γ returns
  | .conditional c t f ty, γ => by
    have hc := expr_leaves c γ
    have ht := expr_leaves t (c.narrowing ++ γ)
    have hf := expr_leaves f γ
    refine ⟨?_, ?_, fun _ _ heq => by cases heq⟩
    · rw [Expr.uses, expr]
      exact hc.value.bind fun _ => (narrowed_leaves ht.value).bind fun _ => hf.value.use fun _ => .pure
    · rw [Expr.uses, exprStmt]
      exact hc.value.value fun _ => Leaves.line.before fun _ => (Leaves.indented (narrowed_leaves ht.stmt)).bind
        fun _ => Leaves.line.before fun _ => hf.stmt.indented.done fun _ => .line
  | .instanceOf x target t, γ => .of_value trivial <| by
    rw [Expr.uses, expr]
    exact rawType_leaves.use fun _ => .pure
  | .logical op l r t, γ => .of_value trivial <| by
    rw [Expr.uses, expr]
    exact .binary (expr_leaves l γ).value (expr_leaves r γ).value
  | .equality op l r t, γ => .of_value trivial <| by
    rw [Expr.uses, expr]
    exact .binary (expr_leaves l γ).value (expr_leaves r γ).value
  | .comparison op l r t, γ => .of_value trivial <| by
    rw [Expr.uses, expr]
    exact .binary (expr_leaves l γ).value (expr_leaves r γ).value
  | .arith op l r t cast, γ => .of_value trivial <| by
    rw [Expr.uses, expr]
    exact (Leaves.binary (expr_leaves l γ).value (expr_leaves r γ).value).use fun _ => .pure
  | .new t args, γ => .of_value trivial <| by
    rw [Expr.uses, expr]
    exact exactType_leaves.bind fun _ => (exprs_leaves args γ).use fun _ => .pure
  | .field r name t, γ => .of_value trivial <| by
    rw [Expr.uses, expr]
    exact (expr_leaves r γ).value.use fun _ => .pure
  | .call none name typeArgs args ret ofValue, γ => .of_value trivial <| by
    rw [Expr.uses, Expr.optionUses, expr]
    refine (exprs_leaves args γ).bind fun _ => ?_
    split
    · exact variableText_leaves.use fun _ => .pure
    · exact callTypeArgs_leaves.bind fun _ => .pure
  | .call (some r) name typeArgs args ret ofValue, γ => .of_value trivial <| by
    rw [Expr.uses, Expr.optionUses, expr]
    refine (exprs_leaves args γ).bind fun _ => ?_
    split
    · exact variableText_leaves.use fun _ => .pure
    · exact callTypeArgs_leaves.bind fun _ => (asReceiver_leaves (expr_leaves r γ).value).use fun _ => .pure
  | .funcRef none name signature, γ => .of_value trivial <| by
    rw [Expr.uses, Expr.optionUses, expr]
    exact funcRefText_leaves
  | .funcRef (some r) name signature, γ => .of_value trivial <| by
    rw [Expr.uses, Expr.optionUses, expr]
    exact (asReceiver_leaves (expr_leaves r γ).value).bind fun _ => funcRefText_leaves
  | .lambda ⟨name, params, ret, body, signature, sam⟩, γ => .of_value trivial <| by
    have hbody := expr_leaves body γ
    rw [Expr.uses, expr]
    exact lambda_leaves hbody
  | .array t elems, γ => .of_value trivial <| by
    rw [Expr.uses, expr]
    exact (exprs_leaves elems γ).bind fun _ => arrayText_leaves
  | .cast v t, γ => .of_value trivial <| by
    rw [Expr.uses, expr]
    exact type_leaves.bind fun _ => (expr_leaves v γ).value.use fun _ => .pure
  | .assign none name v, γ => .of_value trivial <| by
    rw [Expr.uses, Expr.optionUses, expr]
    exact (expr_leaves v γ).value.bind fun _ => .pure
  | .assign (some r) name v, γ => .of_value trivial <| by
    rw [Expr.uses, Expr.optionUses, expr]
    exact (expr_leaves v γ).value.bind fun _ => (expr_leaves r γ).value.use fun _ => .pure
  | .step name op, γ => .of_value trivial <| by
    rw [Expr.uses, expr]
    exact .pure
  | .loop l, γ => by
    refine ⟨?_, ?_, fun _ _ heq => by cases heq⟩
    · rw [expr]
      exact .throw
    · rw [Expr.uses, exprStmt]
      exact loop_leaves l γ
  | .stringLength v t, γ => .of_value trivial <| by
    rw [Expr.uses, expr]
    exact (expr_leaves v γ).value.use fun _ => .pure
  | .print v, γ => .of_value trivial <| by
    rw [Expr.uses, expr]
    exact (expr_leaves v γ).value.use fun _ => .pure

theorem exprs_leaves : ∀ (es : List Expr) (γ : Narrowings),
    Leaves .kept γ (Expr.allUses γ es) (exprs strict es)
  | [], γ => by
    rw [Expr.allUses, exprs]
    exact .pure
  | e :: es, γ => by
    rw [Expr.allUses, exprs]
    exact (expr_leaves e γ).value.bind fun _ => (exprs_leaves es γ).use fun _ => .pure

theorem loop_leaves : ∀ (l : Loop) (γ : Narrowings), Leaves .extended γ (l.uses γ) (loop strict l)
  | .forEach x iterable ⟨ss, isFuncBody⟩, γ => by
    rw [Loop.uses, loop]
    exact exactType_leaves.bind fun _ => (expr_leaves iterable γ).value.value fun _ =>
      (Leaves.braced (stmts_leaves ss γ)).use fun _ => .line
  | .forRange x start stop ⟨ss, isFuncBody⟩, γ => by
    rw [Loop.uses, loop]
    exact (expr_leaves start γ).value.value fun _ => (expr_leaves stop γ).value.value fun _ =>
      (Leaves.braced (stmts_leaves ss γ)).use fun _ => .line
  | .whileCond cond ⟨ss, isFuncBody⟩ bodyFirst, γ => by
    rw [Loop.uses, loop]
    exact (expr_leaves cond γ).value.value fun _ => (Leaves.braced (stmts_leaves ss γ)).use fun _ => .line

theorem stmt_leaves : ∀ (s : Stmt) (γ : Narrowings), Leaves .extended γ (s.uses γ) (stmt strict s)
  | .decl d, γ => by
    rw [Stmt.uses, stmt]
    exact localDecl_leaves d γ
  | .expr e, γ => by
    rw [Stmt.uses, stmt]
    exact (expr_leaves e γ).stmt

theorem stmts_leaves : ∀ (ss : List Stmt) (γ : Narrowings),
    Leaves .extended γ (Stmt.allUses γ ss) (stmts strict ss)
  | [], γ => by
    rw [Stmt.allUses, stmts]
    exact .pure
  | s :: ss, γ => by
    rw [Stmt.allUses, stmts]
    exact (stmt_leaves s γ).bind fun _ => stmts_leaves ss γ

theorem bodyStmts_leaves : ∀ (ss : List Stmt) (γ : Narrowings) (returns : Bool),
    Leaves .extended γ (Stmt.allUses γ ss) (bodyStmts strict returns ss)
  | [], γ, _ => by
    rw [Stmt.allUses, bodyStmts]
    exact .pure
  | [.expr e], γ, _ => by
    rw [Stmt.allUses, Stmt.allUses, Stmt.uses, List.append_nil, bodyStmts]
    split
    · exact (expr_leaves e γ).value.use fun _ => .line
    · exact (expr_leaves e γ).stmt
  | .decl d :: ss, γ, returns => by
    rw [Stmt.allUses, bodyStmts_cons (by simp)]
    exact (stmt_leaves (.decl d) γ).bind fun _ => bodyStmts_leaves ss γ returns
  | .expr e :: s :: ss, γ, returns => by
    rw [Stmt.allUses, bodyStmts_cons (by simp)]
    exact (stmt_leaves (.expr e) γ).bind fun _ => bodyStmts_leaves (s :: ss) γ returns

theorem localDecl_leaves : ∀ (d : Decl) (γ : Narrowings), Leaves .extended γ (d.uses γ) (localDecl strict d)
  | .var ⟨name, t, init, isFinal, inferred⟩, γ => by
    rw [Decl.uses, localDecl]
    split
    · exact Leaves.pure.bind fun _ => (expr_leaves init γ).value.use fun _ => .line
    · exact type_leaves.bind fun _ => (expr_leaves init γ).value.use fun _ => .line
  | .func f, γ => by
    rw [Decl.uses, localDecl]
    exact nestedFunc_leaves (func_leaves f γ)
  | .cls c, γ => by
    rw [Decl.uses, localDecl]
    exact cls_leaves c γ
  | .param _, γ | .field _, γ | .lambda _, γ => by
    rw [Decl.uses, localDecl]
    exact .pure

theorem func_leaves : ∀ (f : FuncDecl) (γ : Narrowings) (body : Expr), f.body = some body →
    ExprLeaves strict γ body
  | ⟨_, _, _, some e, _, _, _, _⟩, γ, _, rfl => expr_leaves e γ

theorem methods_leaves {owner : ClassKind} : ∀ (fs : List FuncDecl) (γ : Narrowings),
    Leaves .extended γ (FuncDecl.allUses γ fs) (methods strict owner fs)
  | [], γ => by
    rw [FuncDecl.allUses, methods]
    exact .pure
  | f :: fs, γ => by
    rw [FuncDecl.allUses, methods]
    exact Leaves.blank.before fun _ => (method_leaves (func_leaves f γ)).bind fun _ => methods_leaves fs γ

theorem supers_leaves {isInterface : Bool} : ∀ (above : List SuperDecl) (γ : Narrowings) (out : Supers),
    Leaves .kept γ (SuperDecl.allUses γ above) (supers strict isInterface above out)
  | [], γ, _ => by
    rw [SuperDecl.allUses, supers]
    exact .pure
  | ⟨t, none⟩ :: above, γ, _ => by
    rw [SuperDecl.allUses, supers]
    exact type_leaves.bind fun _ => supers_leaves above γ _
  | ⟨t, some args⟩ :: above, γ, _ => by
    rw [SuperDecl.allUses, supers]
    exact type_leaves.bind fun _ => (exprs_leaves args γ).bind fun _ => supers_leaves above γ _

theorem cls_leaves : ∀ (c : ClassDecl) (γ : Narrowings), Leaves .extended γ (c.uses γ) (cls strict c)
  | ⟨name, kind, typeParams, above, fields, funcs, isFinal⟩, γ => by
    rw [ClassDecl.uses, cls]
    exact typeParams_leaves.bind fun _ => (supers_leaves above γ _).value fun _ =>
      .enclosed (classFields_leaves.bind fun _ => methods_leaves funcs γ)

end

/-! ## Programs -/

theorem member_leaves (d : Decl) : Leaves .extended γ (d.memberUses γ) (member strict d) := by
  cases d with
  | var v => exact type_leaves.bind fun _ => (expr_leaves v.init γ).value.use fun _ => .line
  | func f => exact method_leaves (func_leaves f γ)
  | cls c => exact cls_leaves c γ
  | param _ | field _ | lambda _ => exact .pure

theorem members_leaves (ds : List Decl) :
    Leaves .extended γ (ds.flatMap (Decl.memberUses γ)) (members strict ds) := by
  induction ds with
  | nil => exact .pure
  | cons d ds ih =>
    rw [List.flatMap_cons]
    cases ds with
    | nil =>
      rw [List.flatMap_nil, List.append_nil]
      exact member_leaves d
    | cons => exact (member_leaves d).bind fun _ => Leaves.blank.before fun _ => ih

/-- To declare the interfaces of the noted arities needs no other. -/
theorem declarations_leaves (ds : List Decl) :
    Leaves .extended γ ((ds.filter fun d => d.kind != .lambda).flatMap (Decl.memberUses γ))
      (declarations strict ds) := by
  refine .enclosed ((members_leaves _).done fun _ => .get fun p _ => ?_)
  split
  · exact .pure
  · exact Leaves.blank.before fun _ => .forM fun _ => .line

end Java

end ProgramGen

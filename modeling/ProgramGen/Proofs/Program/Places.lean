import ProgramGen.Proofs.Program.Shape

/-!
# Induction on the places of an expression

The expressions that stand in an expression, also those in the declarations of its blocks, are
smaller than it. So what holds of every expression if it holds of those that stand in it holds of
all.
-/

namespace ProgramGen

variable {v w : Visibility} {e a : Expr}

/-! ## What stands in a declaration -/

theorem FuncDecl.mem_places_of_default {f : FuncDecl} (h : e ∈ defaults f.params) :
    (v, e) ∈ f.places v :=
  List.mem_append_left _ (List.mem_map_of_mem h)

theorem FuncDecl.exists_mem_places_of_body {f : FuncDecl} (h : f.body = some e) :
    ∃ w, (w, e) ∈ f.places v :=
  ⟨_, List.mem_append_right _ (List.mem_map_of_mem (Option.mem_toList.mpr h))⟩

/-! ## Sizes -/

theorem ParamDecl.sizeOf_of_default {p : ParamDecl} (h : p.defaultValue = some e) :
    sizeOf e < sizeOf p := by
  obtain ⟨name, t, value⟩ := p
  obtain rfl : value = some e := h
  rw [ParamDecl.mk.sizeOf_spec, Option.some.sizeOf_spec]
  omega

theorem sizeOf_of_mem_defaults {ps : List ParamDecl} (h : e ∈ defaults ps) : sizeOf e < sizeOf ps := by
  obtain ⟨p, hp, he⟩ := List.mem_filterMap.mp h
  have := ParamDecl.sizeOf_of_default he
  have := List.sizeOf_lt_of_mem hp
  omega

theorem FuncDecl.sizeOf_of_mem_places {f : FuncDecl} (h : (w, e) ∈ f.places v) : sizeOf e < sizeOf f := by
  obtain ⟨name, ps, ret, body, kind, typeParams, isFinal, isOverride⟩ := f
  rw [FuncDecl.mk.sizeOf_spec]
  rcases List.mem_append.mp h with h | h <;> obtain ⟨a, ha, heq⟩ := List.mem_map.mp h <;> cases heq
  · have : sizeOf e < sizeOf ps := sizeOf_of_mem_defaults ha
    omega
  · obtain rfl : body = some e := Option.mem_toList.mp ha
    rw [Option.some.sizeOf_spec]
    omega

theorem LambdaDecl.sizeOf_of_mem_places {l : LambdaDecl} (h : (w, e) ∈ l.places v) :
    sizeOf e < sizeOf l := by
  obtain ⟨name, ps, ret, body, signature, samTarget⟩ := l
  rw [LambdaDecl.mk.sizeOf_spec]
  rcases List.mem_append.mp h with h | h
  · obtain ⟨a, ha, heq⟩ := List.mem_map.mp h
    cases heq
    have : sizeOf e < sizeOf ps := sizeOf_of_mem_defaults ha
    omega
  · cases List.mem_singleton.mp h
    show sizeOf body < _
    omega

theorem ClassDecl.sizeOf_of_mem_superArgs {c : ClassDecl} (h : e ∈ c.superArgs) : sizeOf e < sizeOf c := by
  obtain ⟨name, kind, typeParams, supers, fields, funcs, isFinal⟩ := c
  obtain ⟨⟨t, args⟩, hs, he⟩ := List.mem_flatMap.mp h
  cases args with
  | none => cases he
  | some args =>
    have hargs : sizeOf e < sizeOf args := List.sizeOf_lt_of_mem he
    have hsuper : sizeOf (⟨t, some args⟩ : SuperDecl) < sizeOf supers := List.sizeOf_lt_of_mem hs
    simp only [SuperDecl.mk.sizeOf_spec, Option.some.sizeOf_spec] at hsuper
    rw [ClassDecl.mk.sizeOf_spec]
    omega

theorem ClassDecl.sizeOf_of_mem_funcs {c : ClassDecl} {f : FuncDecl} (h : f ∈ c.funcs) :
    sizeOf f < sizeOf c := by
  obtain ⟨name, kind, typeParams, supers, fields, funcs, isFinal⟩ := c
  have : sizeOf f < sizeOf funcs := List.sizeOf_lt_of_mem h
  rw [ClassDecl.mk.sizeOf_spec]
  omega

theorem Decl.sizeOf_of_mem_places {d : Decl} (h : (w, e) ∈ d.places v) : sizeOf e < sizeOf d := by
  cases d with
  | var y =>
    obtain ⟨name, t, init, isFinal, inferred⟩ := y
    cases List.mem_singleton.mp h
    rw [Decl.var.sizeOf_spec, VarDecl.mk.sizeOf_spec]
    show sizeOf init < _
    omega
  | param p =>
    obtain ⟨a, ha, heq⟩ := List.mem_map.mp h
    cases heq
    obtain ⟨q, hq, hvalue⟩ := List.mem_filterMap.mp ha
    have := ParamDecl.sizeOf_of_default hvalue
    rw [Decl.param.sizeOf_spec, ← List.mem_singleton.mp hq]
    omega
  | field f => cases h
  | func f =>
    have := FuncDecl.sizeOf_of_mem_places h
    rw [Decl.func.sizeOf_spec]
    omega
  | cls c =>
    rw [Decl.cls.sizeOf_spec]
    rcases List.mem_append.mp h with h | h
    · obtain ⟨a, ha, heq⟩ := List.mem_map.mp h
      cases heq
      have := ClassDecl.sizeOf_of_mem_superArgs ha
      omega
    · obtain ⟨f, hf, hx⟩ := List.mem_flatMap.mp h
      have := FuncDecl.sizeOf_of_mem_places hx
      have := ClassDecl.sizeOf_of_mem_funcs hf
      omega
  | lambda l =>
    have := LambdaDecl.sizeOf_of_mem_places h
    rw [Decl.lambda.sizeOf_spec]
    omega

theorem Block.sizeOf_of_mem_places {b : Block} (h : (w, e) ∈ b.places v) : sizeOf e < sizeOf b := by
  obtain ⟨ss, isFuncBody⟩ := b
  obtain ⟨s, hs, hx⟩ := List.mem_flatMap.mp h
  have hmem : sizeOf s < sizeOf ss := List.sizeOf_lt_of_mem hs
  rw [Block.mk.sizeOf_spec]
  cases s with
  | decl d =>
    have := Decl.sizeOf_of_mem_places hx
    rw [Stmt.decl.sizeOf_spec] at hmem
    omega
  | expr e' =>
    cases List.mem_singleton.mp hx
    rw [Stmt.expr.sizeOf_spec] at hmem
    omega

theorem Loop.sizeOf_of_mem_places {l : Loop} (h : (w, e) ∈ l.places v) : sizeOf e < sizeOf l := by
  rw [Loop.places_eq] at h
  have hbody : (w, e) ∈ l.body.places (l.variables ++ v) → sizeOf e < sizeOf l.body :=
    Block.sizeOf_of_mem_places
  cases l with
  | forEach y iterable body | forRange y start stop body | whileCond cond body bodyFirst =>
    simp only [Loop.head, Loop.body, List.map_cons, List.map_nil, List.cons_append, List.nil_append,
      List.mem_cons, Prod.mk.injEq, Loop.forEach.sizeOf_spec, Loop.forRange.sizeOf_spec,
      Loop.whileCond.sizeOf_spec] at h hbody ⊢
    grind

/-- The parts of a flat expression are smaller than it. -/
theorem Expr.sizeOf_of_mem_children (hflat : e.isFlat) (h : a ∈ e.children) : sizeOf a < sizeOf e := by
  have hargs : ∀ es : List Expr, a ∈ es → sizeOf a < sizeOf es := fun _ => List.sizeOf_lt_of_mem
  have hreceiver : ∀ r : Option Expr, a ∈ r.toList → sizeOf a < sizeOf r := by
    intro r hr
    obtain rfl := Option.mem_toList.mp hr
    simp
  cases e with
  | block _ | lambda _ | loop _ => cases hflat
  | unresolved _ | const _ _ | var _ _ | instanceOf _ _ _ | step _ _ => cases h
  | _ =>
    simp only [Expr.children, List.mem_append, List.mem_cons, List.not_mem_nil, or_false] at h
    simp only [Expr.conditional.sizeOf_spec, Expr.logical.sizeOf_spec, Expr.equality.sizeOf_spec,
      Expr.comparison.sizeOf_spec, Expr.arith.sizeOf_spec, Expr.new.sizeOf_spec,
      Expr.field.sizeOf_spec, Expr.call.sizeOf_spec, Expr.funcRef.sizeOf_spec, Expr.array.sizeOf_spec,
      Expr.cast.sizeOf_spec, Expr.assign.sizeOf_spec, Expr.stringLength.sizeOf_spec,
      Expr.print.sizeOf_spec]
    grind

theorem Expr.sizeOf_of_mem_places (h : (w, e) ∈ a.places v) : sizeOf e < sizeOf a := by
  by_cases hflat : a.isFlat
  · rw [Expr.places_of_isFlat hflat] at h
    obtain ⟨x, hx, heq⟩ := List.mem_map.mp h
    cases heq
    exact Expr.sizeOf_of_mem_children hflat hx
  · cases a with
    | block b =>
      have := Block.sizeOf_of_mem_places h
      rw [Expr.block.sizeOf_spec]
      omega
    | lambda l =>
      have := LambdaDecl.sizeOf_of_mem_places h
      rw [Expr.lambda.sizeOf_spec]
      omega
    | loop l =>
      have := Loop.sizeOf_of_mem_places h
      rw [Expr.loop.sizeOf_spec]
      omega
    | _ => exact absurd rfl hflat

/-- **Induction on the places of an expression**: what holds of an expression if it holds of all that
stand in it holds of every expression. -/
theorem Expr.places_induction {motive : Expr → Prop}
    (h : ∀ e : Expr, (∀ v, ∀ x ∈ e.places v, motive x.2) → motive e) (e : Expr) : motive e := by
  induction hsize : sizeOf e using Nat.strongRecOn generalizing e with
  | _ n ih =>
    subst hsize
    exact h e fun v x hx => ih _ (Expr.sizeOf_of_mem_places hx) x.2 rfl

/-- What holds of an expression of a program if it holds of those that stand in it holds of all that stand
in its declarations. -/
theorem Program.forall_places {p : Program} {motive : Expr → Prop}
    (h : ∀ v e, p.Contains v e → (∀ x ∈ e.places v, motive x.2) → motive e) :
    ∀ d ∈ p.topLevel, ∀ x ∈ d.places p.variables, motive x.2 := by
  -- By induction on `e`, in whatever place it stands.
  have hcontained : ∀ e v, p.Contains v e → motive e := by
    intro e
    induction e using Expr.places_induction with
    | h e ih => exact fun v hc => h v e hc fun x hx => ih v x hx x.1 (.part hc hx)
  exact fun d hd x hx => hcontained x.2 x.1 (.top hd hx)

end ProgramGen

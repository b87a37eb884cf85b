import ProgramGen.Proofs.Program.Formed

/-!
# The shape of programs

What stands where in a program tree. The roots of a declaration are the expressions that stand in it
directly: bodies, initializers, default values and arguments for superclasses. In Java blocks and
loops are statements, so what an expression takes its value from is neither. All types that a tree
records are fully formed.
-/

namespace ProgramGen

/-- The expression has a value in Java: blocks and loops are statements there. -/
def Expr.isValue : Expr → Bool
  | .block _ => false
  | .loop _ => false
  | _ => true

/-- The expression holds no statements and no declarations. -/
def Expr.isFlat : Expr → Bool
  | .block _ => false
  | .lambda _ => false
  | .loop _ => false
  | _ => true

/-! ## Parts -/

/-- The declarations of a block. -/
def Block.decls (b : Block) : List Decl :=
  b.stmts.filterMap fun
    | .decl d => some d
    | .expr _ => none

/-- The declarations that stand in an expression directly. -/
def Expr.decls : Expr → List Decl
  | .block b => b.decls
  | .lambda l => [.lambda l]
  | .loop l => l.body.decls
  | _ => []

/-- The parts whose values an expression is made of. The statements of blocks and loops and the bodies
of closures are not among them. -/
def Expr.operands : Expr → List Expr
  | .block _ => []
  | .lambda _ => []
  | .loop l => l.head
  | e => e.children

/-- The expressions whose values a body gives back: itself, or the last statement of a block. A body
without result gives none. -/
def Expr.results (ret : Ty) (body : Expr) : List Expr :=
  if ret.isVoid then []
  else
    match body with
    | .block b =>
      match b.stmts.getLast? with
      | some (.expr e) => [e]
      | _ => []
    | e => [e]

/-! ## Roots -/

/-- The expressions that stand in a declaration directly. -/
def Decl.roots (d : Decl) : List Expr := (d.places []).map (·.2)

/-- The expressions of a function whose values are used. -/
def FuncDecl.values (f : FuncDecl) : List Expr :=
  defaults f.params ++ f.body.toList.flatMap (·.results f.ret)

/-- The expressions of a declaration whose values are used. -/
def Decl.values : Decl → List Expr
  | .var v => [v.init]
  | .param p => defaults [p]
  | .field _ => []
  | .func f => f.values
  | .cls c => c.superArgs ++ c.funcs.flatMap (·.values)
  | .lambda l => defaults l.params ++ l.body.results l.ret

/-- A declaration of a program in the language `l`: no root is deeper than `n`, in Java all that is
used as a value has one, and the types are formed. -/
structure Decl.Shaped (l : Language) (n : Nat) (d : Decl) : Prop where
  depth : ∀ e ∈ d.roots, e.depth ≤ n
  values : l = .java → ∀ e ∈ d.values, e.isValue
  types : ∀ t ∈ d.stated, t.Formed

/-- A nested function has a body. -/
def Decl.IsWhole (d : Decl) : Prop := ∀ f, d = .func f → f.isAbstract = false

/-- The expression itself, its parts apart, is well formed in the language `l`, with no root in it
deeper than `n`. -/
structure Expr.Shaped (l : Language) (n : Nat) (e : Expr) : Prop where
  operands : l = .java → ∀ a ∈ e.operands, a.isValue
  decls : ∀ d ∈ e.decls, d.Shaped l n ∧ d.IsWhole
  types : ∀ t ∈ e.types, t.Formed

variable {l : Language} {n : Nat} {e : Expr} {d : Decl} {ret : Ty}

namespace Expr

theorem isValue_of_isFlat (h : e.isFlat) : e.isValue := by
  cases e <;> first | rfl | cases h

theorem places_of_isFlat (h : e.isFlat) (v : Visibility) : e.places v = e.children.map (v, ·) := by
  cases e <;> first | rfl | cases h

/-- A flat expression is well formed if its types are and its parts have values. -/
theorem Shaped.of_isFlat (hflat : e.isFlat) (htypes : ∀ t ∈ e.types, t.Formed)
    (h : l = .java → ∀ a ∈ e.children, a.isValue) : e.Shaped l n where
  operands hl := by
    rw [show e.operands = e.children by cases e <;> first | rfl | cases hflat]
    exact h hl
  decls d hd := by
    rw [show e.decls = [] by cases e <;> first | rfl | cases hflat] at hd
    cases hd
  types := htypes

theorem maxDepth_le {es : List Expr} (h : ∀ e ∈ es, e.depth ≤ n) : maxDepth es ≤ n := by
  induction es with
  | nil => exact Nat.zero_le n
  | cons e es ih =>
    obtain ⟨he, hes⟩ := List.forall_mem_cons.mp h
    exact Nat.max_le.mpr ⟨he, ih hes⟩

theorem le_maxDepth {a : Expr} {es : List Expr} (h : a ∈ es) : a.depth ≤ maxDepth es := by
  induction es with
  | nil => cases h
  | cons e es ih =>
    rcases List.mem_cons.mp h with rfl | h
    · exact Nat.le_max_left _ _
    · exact Nat.le_trans (ih h) (Nat.le_max_right _ _)

/-- An expression is one level deeper than its parts. -/
theorem depth_le_succ (h : ∀ a ∈ e.children, a.depth ≤ n) : e.depth ≤ n + 1 := by
  rw [depth_eq, Nat.add_comm]
  exact Nat.succ_le_succ (maxDepth_le h)

end Expr

/-- Visibility makes no difference to what stands in a declaration. -/
theorem Decl.mem_roots {v : Visibility} {x : Visibility × Expr} (h : x ∈ d.places v) :
    x.2 ∈ d.roots := by
  have hplaces : ∀ (f : FuncDecl) (v w : Visibility), (f.places v).map (·.2) = (f.places w).map (·.2) := by
    intro f v w
    simp [FuncDecl.places, Function.comp_def]
  have hall : (d.places v).map (·.2) = d.roots := by
    unfold Decl.roots
    cases d with
    | func f => exact hplaces f v []
    | cls c =>
      simp only [Decl.places, List.map_append, List.map_map, List.map_flatMap, Function.comp_def]
      exact congrArg _ (congrArg (List.flatMap · c.funcs) (funext fun f => hplaces f _ _))
    | lambda l => simp [Decl.places, LambdaDecl.places, Function.comp_def]
    | _ => simp [Decl.places, Function.comp_def]
  rw [← hall]
  exact List.mem_map_of_mem h

/-- The result of a body that is a value is one itself. -/
theorem Expr.results_of_isValue (h : e.isValue) : ∀ a ∈ e.results ret, a = e := by
  intro a ha
  unfold Expr.results at ha
  split at ha
  · cases ha
  · split at ha
    · cases h
    · exact List.mem_singleton.mp ha

end ProgramGen

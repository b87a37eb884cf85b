import ProgramGen.Proofs.Scope.History
import ProgramGen.Proofs.Scope.Namespace
import ProgramGen.Proofs.Scope.Overlay

/-!
# Registration

A scope binds a name once for each kind. A registration is refused for no other reason than that the
name is taken in that very scope; if it is refused, nothing is seen of it, and if it is accepted,
nothing is seen of it from outside the scope, nor from anywhere once it is taken back.
-/

namespace ProgramGen

variable {c c' : Context} {ns m : Namespace}

/-! ## All look-ups at once -/

/-- What look-up finds from a scope: its own bindings (`false`) or all visible ones (`true`). -/
structure Lookups where
  declarations : List Decl
  visibleDeclarations : List Decl
  decls : DeclKind → Bool → List Decl
  vars : Bool → List Decl
  funcs : Bool → List FuncDecl
  classes : Bool → List ClassDecl
  lambdas : Bool → List LambdaDecl
  types : Bool → List TypeParam
  scopedVars : List (Namespace × Decl)
  var? : String → Bool → Option Decl
  func? : String → Bool → Option FuncDecl
  class? : String → Bool → Option ClassDecl

namespace Context

/-- All that can be asked of a symbol table from a scope. -/
def lookups (c : Context) (ns : Namespace) : Lookups where
  declarations := c.declarations ns
  visibleDeclarations := c.visibleDeclarations ns
  decls k outer := c.decls k ns outer
  vars outer := c.vars ns outer
  funcs outer := c.funcs ns outer
  classes outer := c.classes ns outer
  lambdas outer := c.lambdas ns outer
  types outer := c.types ns outer
  scopedVars := c.scopedVars ns
  var? name outer := c.var? ns name outer
  func? name outer := c.func? ns name outer
  class? name outer := c.class? ns name outer

/-- **Look-up sees the scopes around, and no other.** -/
theorem lookups_congr (h : ∀ s, ns.isWithin s → c'.scope s = c.scope s) :
    c'.lookups ns = c.lookups ns := by
  have hself : c'.scope ns = c.scope ns := h ns ns.isWithin_refl
  have haround : ∀ s ∈ ns.lineage, c'.scope s = c.scope s := fun s hs =>
    h s (Namespace.mem_lineage.mp hs).1
  have hown : ∀ k, ∀ s, c'.scope s = c.scope s → c'.own k s = c.own k s := fun k s hs => by
    rw [own, own, hs]
  have hvisible : ∀ k, c'.visible k ns = c.visible k ns := fun k => by
    rw [visible_eq_merged, visible_eq_merged, List.flatMap_congr fun s hs => hown k s (haround s hs)]
  have hdecls : ∀ k outer, c'.decls k ns outer = c.decls k ns outer := fun k outer => by
    rw [decls, decls, hvisible, hown k ns hself]
  have hscoped : c'.scopedVars ns = c.scopedVars ns := by
    rw [scopedVars_eq_merged, scopedVars_eq_merged,
      List.flatMap_congr fun s hs => congrArg (List.map (s, ·)) (hown .var s (haround s hs))]
  have htypes : ∀ outer, c'.types ns outer = c.types ns outer := fun outer => by
    cases outer with
    | false => simp only [types, Bool.false_eq_true, if_false, List.foldl_cons, List.foldl_nil, hself]
    | true =>
      rw [types_eq_merged, types_eq_merged,
        List.flatMap_congr fun s hs => congrArg Bindings.types (haround s hs)]
  simp only [lookups, declarations, visibleDeclarations, vars, funcs, classes, lambdas, var?, func?,
    class?, hself, hvisible, hdecls, hscoped, htypes]

end Context

/-! ## Entries -/

/-- What is registered in a scope: a declaration of any kind, one that is to be a variable, or a type
parameter. -/
inductive Entry where
  | decl (d : Decl)
  | var (d : Decl)
  | type (p : TypeParam)

namespace Entry

/-- Only what is a variable can be registered as one. -/
def IsFit : Entry → Prop
  | .var d => d.kind = .var
  | _ => True

/-- A binding has the name of the entry, and its kind. -/
def BoundIn (b : Bindings) : Entry → Prop
  | .decl d | .var d => ∃ d' ∈ b.decls, d'.kind = d.kind ∧ d'.name = d.name
  | .type p => ∃ q ∈ b.types, q.name = p.name

/-- Variables and type parameters can be removed one by one. -/
def IsRemovable : Entry → Prop
  | .decl d | .var d => d.kind = .var
  | .type _ => True

/-- The registration of the entry, as a step of a history. -/
def operation (ns : Namespace) : Entry → Operation
  | .decl d => .add ns d
  | .var d => .addVar ns d
  | .type p => .addType ns p

end Entry

namespace Bindings

/-- The bindings with one more, last in order. -/
def adding (b : Bindings) : Entry → Bindings
  | .decl d | .var d => { b with decls := b.decls ++ [d] }
  | .type p => { b with types := b.types ++ [p] }

theorem binds_iff {b : Bindings} {k : DeclKind} {name : String} :
    b.binds k name ↔ ∃ d ∈ b.decls, d.kind = k ∧ d.name = name := by
  simp [binds, isNamed, List.any_eq_true]

theorem bindsType_iff {b : Bindings} {name : String} :
    b.types.any (·.name == name) ↔ ∃ p ∈ b.types, p.name = name := by
  simp [List.any_eq_true]

end Bindings

namespace Context

/-- Register an entry. -/
def enter (c : Context) (ns : Namespace) : Entry → Except GenError Context
  | .decl d => c.add ns d
  | .var d => c.addVar ns d
  | .type p => c.addType ns p

/-- Remove the variable or type parameter of the name of an entry. -/
def retract (c : Context) (ns : Namespace) : Entry → Context
  | .decl d | .var d => c.removeVar ns d.name
  | .type p => c.removeType ns p.name

variable {e : Entry}

/-- **An entry goes in, last in order, or is refused**, as it fits and its name is free or not. -/
theorem enter_cases (c : Context) (ns : Namespace) (e : Entry) :
    (e.IsFit ∧ ¬ e.BoundIn (c.scope ns) ∧ c.enter ns e = .ok (c.set ns ((c.scope ns).adding e))) ∨
      ((¬ e.IsFit ∨ e.BoundIn (c.scope ns)) ∧ ∃ err, c.enter ns e = .error err) := by
  have hadd : ∀ d : Decl,
      ¬ (Entry.decl d).BoundIn (c.scope ns) ∧ c.add ns d = .ok (c.set ns ((c.scope ns).adding (.decl d))) ∨
      (Entry.decl d).BoundIn (c.scope ns) ∧ ∃ err, c.add ns d = .error err := fun d => by
    by_cases h : (c.scope ns).binds d.kind d.name
    · exact .inr ⟨Bindings.binds_iff.mp h, _, if_pos h⟩
    · exact .inl ⟨fun hb => h (Bindings.binds_iff.mpr hb), if_neg h⟩
  cases e with
  | decl d => exact (hadd d).imp (fun h => ⟨trivial, h⟩) fun h => ⟨.inr h.1, h.2⟩
  | var d =>
    by_cases hkind : d.kind = .var
    · rw [enter, addVar, if_pos hkind]
      exact (hadd d).imp (fun h => ⟨hkind, h⟩) fun h => ⟨.inr h.1, h.2⟩
    · exact .inr ⟨.inl hkind, _, if_neg hkind⟩
  | type p =>
    by_cases h : (c.scope ns).types.any (·.name == p.name)
    · exact .inr ⟨.inr (Bindings.bindsType_iff.mp h), _, if_pos h⟩
    · exact .inl ⟨trivial, fun hb => h (Bindings.bindsType_iff.mpr hb), if_neg h⟩

theorem enter_eq_ok (h : c.enter ns e = .ok c') :
    ¬ e.BoundIn (c.scope ns) ∧ c' = c.set ns ((c.scope ns).adding e) := by
  rcases enter_cases c ns e with ⟨-, hfree, hok⟩ | ⟨-, err, herr⟩
  · exact ⟨hfree, Except.ok.inj (h.symm.trans hok)⟩
  · cases h.symm.trans herr

theorem enter_eq_error_iff :
    (∃ err, c.enter ns e = .error err) ↔ ¬ e.IsFit ∨ e.BoundIn (c.scope ns) := by
  rcases enter_cases c ns e with ⟨hfit, hfree, hok⟩ | ⟨hwhy, herr⟩
  · refine iff_of_false ?_ (not_or.mpr ⟨not_not.mpr hfit, hfree⟩)
    rintro ⟨err, herr⟩
    cases hok.symm.trans herr
  · exact iff_of_true herr hwhy

theorem apply_operation (c : Context) (ns : Namespace) (e : Entry) :
    c.apply (e.operation ns) = (c.enter ns e).toOption.getD c := by
  cases e <;> rfl

/-- **What is removed right after it has been registered was not there before.** -/
theorem scope_retract (hfree : ¬ e.BoundIn (c.scope ns)) (hrem : e.IsRemovable) :
    ((c.set ns ((c.scope ns).adding e)).retract ns e).scope ns = c.scope ns := by
  have hvar : ∀ d : Decl, d.kind = .var → ¬ (Entry.decl d).BoundIn (c.scope ns) →
      ((c.scope ns).decls ++ [d]).eraseP (Bindings.isNamed .var d.name) = (c.scope ns).decls := by
    intro d hkind hfree
    rw [List.eraseP_append_right, List.eraseP_cons_of_pos, List.append_nil]
    · simp [Bindings.isNamed, hkind]
    · intro d' hd' hnamed
      simp only [Bindings.isNamed, Bool.and_eq_true, beq_iff_eq] at hnamed
      exact hfree ⟨d', hd', hnamed.1.trans hkind.symm, hnamed.2⟩
  cases e with
  | decl d | var d =>
    rw [retract, removeVar, scope_set_self, scope_set_self, Bindings.adding, hvar d hrem hfree]
  | type p =>
    rw [retract, removeType, scope_set_self, scope_set_self, Bindings.adding]
    dsimp only
    rw [List.eraseP_append_right, List.eraseP_cons_of_pos, List.append_nil]
    · exact beq_self_eq_true p.name
    · exact fun q hq hname => hfree ⟨q, hq, by simpa using hname⟩

theorem scope_retract_of_ne {b : Bindings} (h : ns ≠ m) : ((c.set ns b).retract ns e).scope m = c.scope m := by
  cases e <;> simp only [retract, removeVar, removeType, scope_set, if_neg h]

end Context

/-! ## A name is bound once -/

/-- What a symbol table binds and how it takes registrations. -/
structure Context.Registers (c : Context) : Prop where
  /-- In no scope have two declarations of a kind the same name. -/
  distinct : ∀ ns, (c.scope ns).Distinct
  distinctTypes : ∀ ns, (c.scope ns).DistinctTypes
  /-- An entry is refused for no other reason than that its name is bound in the scope itself, or that
  it is to be a variable and is none. -/
  refused_iff : ∀ ns e, (∃ err, c.enter ns e = .error err) ↔ ¬ e.IsFit ∨ e.BoundIn (c.scope ns)
  /-- A refused registration is seen from nowhere, also if it makes room for the bindings of the scope. -/
  refused : ∀ ns e err, c.enter ns e = .error err → ∀ m,
    (c.apply (e.operation ns)).lookups m = c.lookups m ∧
      (c.set ns (c.scope ns)).lookups m = c.lookups m
  /-- A registration is seen from nowhere but the scope and those inside it. -/
  accepted : ∀ ns e c', c.enter ns e = .ok c' → ∀ m, m.isWithin ns = false → c'.lookups m = c.lookups m
  /-- A variable or type parameter that is removed at once leaves no trace. -/
  retracted : ∀ ns e c', c.enter ns e = .ok c' → e.IsRemovable → ∀ m,
    (c'.retract ns e).lookups m = c.lookups m

namespace Context

/-- **A name is bound once, and registration is atomic**, whatever operations the symbol table has
come about by, as long as changes in place keep kind and name. -/
theorem after_registers (ops : List Operation) (h : ∀ op ∈ ops, op.KeepsNames) : (after ops).Registers where
  distinct ns := by
    rw [scope_after]
    exact Bindings.distinct_left h ns
  distinctTypes ns := by
    rw [scope_after]
    exact Bindings.distinctTypes_left ops ns
  refused_iff ns e := enter_eq_error_iff
  refused ns e err herr m := by
    refine ⟨?_, lookups_congr fun s _ => scope_set_refused.symm⟩
    rw [apply_operation, herr]
    rfl
  accepted ns e c' hok m hm := by
    obtain ⟨-, rfl⟩ := enter_eq_ok hok
    refine lookups_congr fun s hs => ?_
    have hne : ns ≠ s := by
      rintro rfl
      rw [hs] at hm
      cases hm
    rw [scope_set, if_neg hne]
  retracted ns e c' hok hrem m := by
    obtain ⟨hfree, rfl⟩ := enter_eq_ok hok
    refine lookups_congr fun s _ => ?_
    by_cases hs : ns = s
    · subst hs
      exact scope_retract hfree hrem
    · exact scope_retract_of_ne hs

/-- A name for a variable of the top level and for a type parameter and a function of it, and once more
inside the function. -/
def homonyms : List Operation :=
  [.addVar .global (.field ⟨"x", Language.kotlin.anyType, true, false, false⟩),
    .addType .global ⟨"x", .invariant, none⟩,
    .change .global .var "x" id,
    .addVar (Namespace.global.child "x") (.param ⟨"x", Language.kotlin.stringType, none⟩),
    .removeVar (Namespace.global.child "x") "x"]

/-- One more variable of the name is refused where there is one, and inside it can be bound anew. -/
theorem homonyms_registers :
    (∀ op ∈ homonyms, op.KeepsNames) ∧ (after homonyms).Registers ∧
      (∃ err, (after homonyms).enter .global (.var (.param ⟨"x", Language.kotlin.stringType, none⟩)) =
        .error err) ∧
      ¬ ∃ err, (after homonyms).enter (Namespace.global.child "x")
        (.var (.param ⟨"x", Language.kotlin.stringType, none⟩)) = .error err := by
  have hkeep : ∀ op ∈ homonyms, op.KeepsNames := by
    simp [homonyms, Operation.KeepsNames]
  have hreg := after_registers homonyms hkeep
  refine ⟨hkeep, hreg, (hreg.refused_iff _ _).mpr (.inr ?_), fun herr => ?_⟩
  · rw [scope_after]
    exact ⟨_, List.mem_singleton_self _, rfl, rfl⟩
  · rcases (hreg.refused_iff _ _).mp herr with hfit | hbound
    · exact hfit rfl
    · rw [scope_after] at hbound
      obtain ⟨d, hd, -⟩ := hbound
      cases hd

end Context

end ProgramGen

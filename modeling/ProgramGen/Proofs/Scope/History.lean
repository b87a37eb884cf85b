import ProgramGen.Proofs.Run.Context
import Mathlib.Data.List.Nodup

/-!
# Histories of the symbol table

A symbol table comes about by registrations, removals and changes in any order. What they leave in
one scope can be told from the scope alone: the operations on other scopes do not reach it, save
that it is dropped together with a scope around it.
-/

namespace ProgramGen

variable {c : Context} {s : Namespace} {b : Bindings} {k : DeclKind}

/-- What can be done to a symbol table. -/
inductive Operation where
  | add (ns : Namespace) (d : Decl)
  | addVar (ns : Namespace) (d : Decl)
  | addType (ns : Namespace) (p : TypeParam)
  | removeVar (ns : Namespace) (name : String)
  | removeType (ns : Namespace) (name : String)
  | removeNamespace (ns : Namespace)
  /-- Change a declaration where it is bound. -/
  | change (ns : Namespace) (k : DeclKind) (name : String) (f : Decl → Decl)

namespace Operation

/-- A change leaves a declaration its kind and name. -/
def KeepsNames : Operation → Prop
  | .change _ _ _ f => ∀ d, (f d).kind = d.kind ∧ (f d).name = d.name
  | _ => True

/-- Whether the operation is one on the scope `s`, or drops a scope around it. -/
def reaches (s : Namespace) : Operation → Bool
  | .add ns _ | .addVar ns _ | .addType ns _ => ns = s
  | .removeVar ns _ | .removeType ns _ => ns = s
  | .removeNamespace ns => s.isWithin ns
  | .change ns _ _ _ => ns = s

end Operation

namespace Context

/-- The symbol table after an operation; a registration that is refused leaves it as it is. -/
def apply (c : Context) : Operation → Context
  | .add ns d => (c.add ns d).toOption.getD c
  | .addVar ns d => (c.addVar ns d).toOption.getD c
  | .addType ns p => (c.addType ns p).toOption.getD c
  | .removeVar ns name => c.removeVar ns name
  | .removeType ns name => c.removeType ns name
  | .removeNamespace ns => c.removeNamespace ns
  | .change ns k name f => c.modify ns k name f

/-- The symbol table that operations build from nothing. -/
def after (ops : List Operation) : Context := ops.foldl apply .empty

end Context

namespace Bindings

/-- Register a declaration, last in order, unless its kind and name are bound. -/
def register (b : Bindings) (d : Decl) : Bindings :=
  if b.binds d.kind d.name then b else { b with decls := b.decls ++ [d] }

/-- Register a type parameter, last in order, unless its name is bound. -/
def registerType (b : Bindings) (p : TypeParam) : Bindings :=
  if b.types.any (·.name == p.name) then b else { b with types := b.types ++ [p] }

/-- What an operation makes of the bindings of a scope that it reaches. -/
def act (b : Bindings) : Operation → Bindings
  | .add _ d => b.register d
  | .addVar _ d => if d.kind = .var then b.register d else b
  | .addType _ p => b.registerType p
  | .removeVar _ name => { b with decls := b.decls.eraseP (isNamed .var name) }
  | .removeType _ name => { b with types := b.types.eraseP (·.name == name) }
  | .removeNamespace _ => .empty
  | .change _ k name f => { b with decls := Context.modifyFirst (isNamed k name) f b.decls }

/-- What an operation makes of the bindings of the scope `s`. -/
def applyAt (s : Namespace) (b : Bindings) (op : Operation) : Bindings :=
  if op.reaches s then b.act op else b

/-- What operations leave bound in the scope `s`, in order of registration. -/
def left (ops : List Operation) (s : Namespace) : Bindings := ops.foldl (applyAt s) .empty

/-- The declarations of one kind. -/
def ofKind (b : Bindings) (k : DeclKind) : List Decl := b.decls.filter (·.kind == k)

end Bindings

/-! ## Scope by scope -/

namespace Context

/-- New bindings in place of those of one scope concern no other. -/
theorem scope_set_scope {ns : Namespace} (f : Bindings → Bindings) :
    (c.set ns (f (c.scope ns))).scope s = if decide (ns = s) then f (c.scope s) else c.scope s := by
  rw [scope_set]
  by_cases h : ns = s
  · rw [if_pos h, if_pos (decide_eq_true h), h]
  · rw [if_neg h, if_neg (by simpa using h)]

/-- A registration that is refused might as well put the old bindings in place of themselves. -/
theorem scope_set_refused {ns : Namespace} : c.scope s = (c.set ns (c.scope ns)).scope s := by
  rw [scope_set_scope fun b => b, ite_self]

theorem scope_add (ns : Namespace) (d : Decl) :
    ((c.add ns d).toOption.getD c).scope s = (c.set ns ((c.scope ns).register d)).scope s := by
  unfold add Bindings.register
  dsimp only
  split
  · exact scope_set_refused
  · rfl

theorem scope_addVar (ns : Namespace) (d : Decl) : ((c.addVar ns d).toOption.getD c).scope s =
    (c.set ns (if d.kind = .var then (c.scope ns).register d else c.scope ns)).scope s := by
  unfold addVar
  split
  · exact scope_add ns d
  · exact scope_set_refused

theorem scope_addType (ns : Namespace) (p : TypeParam) :
    ((c.addType ns p).toOption.getD c).scope s = (c.set ns ((c.scope ns).registerType p)).scope s := by
  unfold addType Bindings.registerType
  dsimp only
  split
  · exact scope_set_refused
  · rfl

theorem scope_removeNamespace (ns : Namespace) :
    (c.removeNamespace ns).scope s = if s.isWithin ns then .empty else c.scope s := by
  simp only [scope, removeNamespace, Std.HashMap.getD_eq_getD_getElem?, Std.HashMap.getElem?_filter,
    Std.HashMap.getKey_eq]
  cases c.scopes[s]? <;> cases s.isWithin ns <;> rfl

/-- **An operation acts on each scope by itself.** -/
theorem scope_apply (op : Operation) : (c.apply op).scope s = (c.scope s).applyAt s op := by
  have hact : ∀ ns, (c.set ns ((c.scope ns).act op)).scope s =
      if decide (ns = s) then (c.scope s).act op else c.scope s :=
    fun ns => scope_set_scope fun b => b.act op
  cases op with
  | add ns d => exact (scope_add ns d).trans (hact ns)
  | addVar ns d => exact (scope_addVar ns d).trans (hact ns)
  | addType ns p => exact (scope_addType ns p).trans (hact ns)
  | removeVar ns name => exact hact ns
  | removeType ns name => exact hact ns
  | removeNamespace ns => exact scope_removeNamespace ns
  | change ns k name f => exact hact ns

/-- **What a scope binds is what the operations leave in it.** -/
theorem scope_after (ops : List Operation) : (after ops).scope s = Bindings.left ops s := by
  suffices h : ∀ c : Context, (ops.foldl apply c).scope s = ops.foldl (Bindings.applyAt s) (c.scope s) by
    rw [after, h, scope_empty]
    rfl
  induction ops with
  | nil => exact fun _ => rfl
  | cons op ops ih =>
    intro c
    rw [List.foldl_cons, ih, scope_apply, List.foldl_cons]

end Context

/-! ## No name twice -/

namespace Bindings

/-- No two type parameters have one name. -/
def DistinctTypes (b : Bindings) : Prop := (b.types.map TypeParam.name).Nodup

/-- No two declarations of a kind have one name. -/
def Distinct (b : Bindings) : Prop := (b.decls.map fun d => (d.kind, d.name)).Nodup

/-- What has a new name may be bound as well. -/
theorem nodup_map_append {α β : Type} {f : α → β} {xs : List α} {x : α} (h : (xs.map f).Nodup)
    (hfree : ∀ y ∈ xs, f y ≠ f x) : ((xs ++ [x]).map f).Nodup := by
  rw [List.map_append, List.map_singleton, ← List.concat_eq_append]
  refine List.Nodup.concat (fun hmem => ?_) h
  obtain ⟨y, hy, heq⟩ := List.mem_map.mp hmem
  exact hfree y hy heq

theorem Distinct.register {d : Decl} (h : b.Distinct) : (b.register d).Distinct := by
  unfold Bindings.register
  split
  · exact h
  · rename_i hfree
    refine nodup_map_append h fun d' hd' heq => hfree ?_
    obtain ⟨hkind, hname⟩ := Prod.mk.inj heq
    exact List.any_eq_true.mpr ⟨d', hd', by simp [isNamed, hkind, hname]⟩

theorem DistinctTypes.registerType {p : TypeParam} (h : b.DistinctTypes) :
    (b.registerType p).DistinctTypes := by
  unfold Bindings.registerType
  split
  · exact h
  · rename_i hfree
    refine nodup_map_append h fun q hq heq => hfree ?_
    exact List.any_eq_true.mpr ⟨q, hq, by simpa using heq⟩

/-- **An operation leaves the names of declarations distinct**, if it does not rename any. -/
theorem Distinct.act {op : Operation} (h : b.Distinct) (hop : op.KeepsNames) : (b.act op).Distinct := by
  cases op with
  | add ns d => exact h.register
  | addVar ns d =>
    show (if d.kind = .var then b.register d else b).Distinct
    split
    · exact h.register
    · exact h
  | addType ns p =>
    show (b.registerType p).Distinct
    unfold Bindings.registerType
    split <;> exact h
  | removeVar ns name => exact h.sublist (List.eraseP_sublist.map _)
  | removeType ns name => exact h
  | removeNamespace ns => exact List.nodup_nil
  | change ns k name f =>
    show ((Context.modifyFirst _ _ _).map _).Nodup
    rwa [Context.map_modifyFirst fun d _ _ => Prod.ext (hop d).1 (hop d).2]

/-- **An operation leaves the names of type parameters distinct.** -/
theorem DistinctTypes.act (h : b.DistinctTypes) (op : Operation) : (b.act op).DistinctTypes := by
  have hregister : ∀ d, (b.register d).DistinctTypes := by
    intro d
    unfold Bindings.register
    split <;> exact h
  cases op with
  | add ns d => exact hregister d
  | addVar ns d =>
    show (if d.kind = .var then b.register d else b).DistinctTypes
    split
    · exact hregister d
    · exact h
  | addType ns p => exact h.registerType
  | removeVar ns name => exact h
  | removeType ns name => exact h.sublist (List.eraseP_sublist.map _)
  | removeNamespace ns => exact List.nodup_nil
  | change ns k name f => exact h

/-- What every operation on a scope keeps, what they leave in it has. -/
theorem left_induction {P : Bindings → Prop} {ops : List Operation} (hempty : P .empty)
    (hact : ∀ op ∈ ops, ∀ b, P b → P (b.act op)) : P (left ops s) :=
  List.foldlRecOn ops (applyAt s) hempty fun b hb op hop => by
    unfold applyAt
    split
    · exact hact op hop b hb
    · exact hb

theorem distinct_left {ops : List Operation} (h : ∀ op ∈ ops, op.KeepsNames) (s : Namespace) :
    (left ops s).Distinct :=
  left_induction List.nodup_nil fun op hop _ hb => hb.act (h op hop)

theorem distinctTypes_left (ops : List Operation) (s : Namespace) : (left ops s).DistinctTypes :=
  left_induction List.nodup_nil fun op _ _ hb => hb.act op

end Bindings

end ProgramGen

import ProgramGen.Scope.Context
import Std.Data.HashMap.Lemmas

/-!
# The symbol table, by its scopes

What each change does to each scope, and that look-up finds what scopes bind: all that is visible
is bound in a scope of the lineage.
-/

namespace ProgramGen

variable {α : Type} {c c' : Context} {ns m : Namespace} {b : Bindings} {d : Decl} {k : DeclKind}
variable {name : String} {p : TypeParam}

namespace Context

/-! ## Changes -/

theorem scope_empty : Context.empty.scope ns = .empty := by simp [scope, Context.empty]

theorem scope_set : (c.set ns b).scope m = if ns = m then b else c.scope m := by
  simp [scope, set, Std.HashMap.getD_insert]

@[simp]
theorem scope_set_self : (c.set ns b).scope ns = b := by simp [scope_set]

/-- The symbol table with one more declaration at the end of a scope. -/
def push (c : Context) (ns : Namespace) (d : Decl) : Context :=
  c.set ns { c.scope ns with decls := (c.scope ns).decls ++ [d] }

/-- The symbol table with one more type parameter at the end of a scope. -/
def pushType (c : Context) (ns : Namespace) (p : TypeParam) : Context :=
  c.set ns { c.scope ns with types := (c.scope ns).types ++ [p] }

/-- A registration that is accepted adds one declaration, of a kind and name that were free. -/
theorem add_eq_ok (h : c.add ns d = .ok c') :
    (c.scope ns).binds d.kind d.name = false ∧ c' = c.push ns d := by
  unfold add at h
  dsimp only at h
  split at h
  · cases h
  · cases h
    exact ⟨Bool.eq_false_iff.mpr ‹_›, rfl⟩

/-- A registration is refused where one of its kind and name is bound. -/
theorem binds_of_add_eq_error {e : GenError} (h : c.add ns d = .error e) : (c.scope ns).binds d.kind d.name := by
  unfold add at h
  dsimp only at h
  split at h
  · assumption
  · cases h

theorem addVar_eq_ok (h : c.addVar ns d = .ok c') : d.kind = .var ∧ c.add ns d = .ok c' := by
  unfold addVar at h
  split at h
  · exact ⟨‹_›, h⟩
  · cases h

theorem addType_eq_ok (h : c.addType ns p = .ok c') :
    (∀ q ∈ (c.scope ns).types, q.name ≠ p.name) ∧ c' = c.pushType ns p := by
  unfold addType at h
  dsimp only at h
  split at h
  · cases h
  · rename_i hfree
    cases h
    refine ⟨fun q hq hname => hfree ?_, rfl⟩
    exact List.any_eq_true.mpr ⟨q, hq, by simpa using hname⟩

theorem mem_declarations_push {d' : Decl} :
    d' ∈ (c.push ns d).declarations m ↔ d' ∈ c.declarations m ∨ (ns = m ∧ d' = d) := by
  rw [declarations, push, scope_set]
  split
  · subst ns
    simp [declarations]
  · simp [declarations, *]

theorem declarations_push :
    (c.push ns d).declarations m = c.declarations m ++ if m = ns then [d] else [] := by
  rw [declarations, push, scope_set]
  by_cases h : ns = m
  · subst h
    simp [declarations]
  · simp [h, Ne.symm h, declarations]

@[simp]
theorem types_push : ((c.push ns d).scope m).types = (c.scope m).types := by
  rw [push, scope_set]
  split
  · rw [‹ns = m›]
  · rfl

@[simp]
theorem declarations_pushType : (c.pushType ns p).declarations m = c.declarations m := by
  rw [declarations, pushType, scope_set]
  split
  · rw [‹ns = m›]
    rfl
  · rfl

theorem types_pushType : ((c.pushType ns p).scope m).types =
    if ns = m then (c.scope m).types ++ [p] else (c.scope m).types := by
  rw [pushType, scope_set]
  split
  · rw [‹ns = m›]
  · rfl

theorem mem_modifyFirst {q : α → Bool} {f : α → α} {xs : List α} {x : α}
    (h : x ∈ modifyFirst q f xs) : x ∈ xs ∨ ∃ y ∈ xs, q y ∧ x = f y := by
  induction xs with
  | nil => cases h
  | cons y ys ih =>
    rw [modifyFirst] at h
    split at h <;> grind

/-- A change of one element that keeps `g` of it keeps `g` of all. -/
theorem map_modifyFirst {β : Type} {q : α → Bool} {f : α → α} {g : α → β} {xs : List α}
    (h : ∀ x ∈ xs, q x → g (f x) = g x) : (modifyFirst q f xs).map g = xs.map g := by
  induction xs with
  | nil => rfl
  | cons x xs ih =>
    rw [modifyFirst]
    split
    · simp [h x List.mem_cons_self ‹_›]
    · simp [ih fun y hy => h y (List.mem_cons_of_mem _ hy)]

/-- What is found under a name after a change of the first element of some name. -/
theorem find?_modifyFirst {key : α → String} {f : α → α} {n n' : String} {xs : List α}
    (hf : ∀ x, key x = n → key (f x) = n) :
    (modifyFirst (key · == n) f xs).find? (key · == n') =
      if n' = n then (xs.find? (key · == n)).map f else xs.find? (key · == n') := by
  induction xs with
  | nil => simp [modifyFirst]
  | cons x xs ih =>
    rw [modifyFirst]
    by_cases hx : key x = n
    · have hfx := hf x hx
      by_cases hn : n' = n
      · simp [hx, hn, hfx]
      · simp [hx, hn, hfx, Ne.symm hn]
    · by_cases hn : n' = n
      · subst hn
        simpa [hx] using ih
      · by_cases hx' : key x = n'
        · simp [hn, hx']
        · simpa [hx, hn, hx'] using ih

theorem declarations_modify {f : Decl → Decl} : (c.modify ns k name f).declarations m =
    if m = ns then modifyFirst (Bindings.isNamed k name) f (c.declarations ns) else
      c.declarations m := by
  rw [declarations, modify, scope_set]
  by_cases h : ns = m
  · subst h
    simp [declarations]
  · simp [h, Ne.symm h, declarations]

theorem scope_modify_of_ne {f : Decl → Decl} (h : m ≠ ns) : (c.modify ns k name f).scope m = c.scope m := by
  rw [modify, scope_set, if_neg (Ne.symm h)]

@[simp]
theorem types_modify {f : Decl → Decl} : ((c.modify ns k name f).scope m).types = (c.scope m).types := by
  rw [modify, scope_set]
  split
  · rw [‹ns = m›]
  · rfl

/-- To change the first of its kind is to change it wherever it is, if there is one only. -/
theorem modifyFirst_eq_map {β : Type} {key : α → β} {p : α → Bool} {f : α → α} {xs : List α}
    (hnodup : (xs.map key).Nodup) (hp : ∀ x ∈ xs, ∀ y ∈ xs, p x → p y → key x = key y) :
    modifyFirst p f xs = xs.map fun x => if p x then f x else x := by
  induction xs with
  | nil => rfl
  | cons x xs ih =>
    obtain ⟨hx, hnodup⟩ := List.nodup_cons.mp hnodup
    rw [modifyFirst, List.map_cons]
    split
    · rename_i hpx
      have hrest : ∀ y ∈ xs, p y = false := fun y hy => Bool.eq_false_iff.mpr fun hpy =>
        hx (hp x List.mem_cons_self y (List.mem_cons_of_mem _ hy) hpx hpy ▸ List.mem_map_of_mem hy)
      refine congrArg _ ?_
      calc xs
        _ = xs.map id := (List.map_id xs).symm
        _ = xs.map fun x => if p x then f x else x :=
          List.map_congr_left fun y hy => by simp [hrest y hy]
    · rw [ih hnodup fun y hy z hz => hp y (List.mem_cons_of_mem _ hy) z (List.mem_cons_of_mem _ hz)]

/-- A change of one element, seen among the elements of one sort. -/
theorem filterMap_modifyFirst {β : Type} {sel : α → Option β} {p : α → Bool} {f : α → α} {q : β → Bool}
    {g : β → β} {xs : List α} (hsome : ∀ x y, sel x = some y → p x = q y ∧ sel (f x) = some (g y))
    (hnone : ∀ x, sel x = none → p x = false) :
    (modifyFirst p f xs).filterMap sel = modifyFirst q g (xs.filterMap sel) := by
  induction xs with
  | nil => rfl
  | cons x xs ih =>
    rw [modifyFirst, List.filterMap_cons]
    cases hx : sel x with
    | none =>
      rw [hnone x hx, if_neg (by simp), List.filterMap_cons, hx]
      exact ih
    | some y =>
      obtain ⟨hp, hf⟩ := hsome x y hx
      rw [modifyFirst, hp]
      split
      · rw [List.filterMap_cons, hf]
      · rw [List.filterMap_cons, hx, ih]

/-! ## Look-up -/

theorem mem_overlay {key : α → String} {xs : List α} {x y : α} (h : y ∈ overlay key xs x) :
    y ∈ xs ∨ y = x := by
  induction xs with
  | nil => simpa [overlay] using h
  | cons z zs ih =>
    rw [overlay] at h
    split at h <;> grind

theorem mem_foldl_overlay {key : α → String} {xs ys : List α} {y : α}
    (h : y ∈ ys.foldl (overlay key) xs) : y ∈ xs ∨ y ∈ ys := by
  induction ys generalizing xs with
  | nil => exact .inl h
  | cons z zs ih =>
    rcases ih h with h | h
    · rcases mem_overlay h with h | rfl
      · exact .inl h
      · exact .inr List.mem_cons_self
    · exact .inr (List.mem_cons_of_mem _ h)

/-- What is laid over scope by scope comes from one of the scopes. -/
theorem mem_foldl_scopes {key : α → String} {bound : Namespace → List α} {scopes : List Namespace}
    {xs : List α} {y : α}
    (h : y ∈ scopes.foldl (fun out s => (bound s).foldl (overlay key) out) xs) :
    y ∈ xs ∨ ∃ s ∈ scopes, y ∈ bound s := by
  induction scopes generalizing xs with
  | nil => exact .inl h
  | cons s rest ih =>
    rcases ih h with h | ⟨r, hr, h⟩
    · rcases mem_foldl_overlay h with h | h
      · exact .inl h
      · exact .inr ⟨s, List.mem_cons_self, h⟩
    · exact .inr ⟨r, List.mem_cons_of_mem _ hr, h⟩

theorem mem_own : d ∈ c.own k ns ↔ d ∈ c.declarations ns ∧ d.kind = k := by
  simp [own, declarations]

/-- **What is visible is bound in an enclosing scope.** -/
theorem mem_visible (h : d ∈ c.visible k ns) :
    ∃ s ∈ ns.lineage, d ∈ c.declarations s ∧ d.kind = k := by
  rcases mem_foldl_scopes h with h | ⟨s, hs, h⟩
  · cases h
  · exact ⟨s, hs, mem_own.mp h⟩

theorem mem_decls {outer : Bool} (h : d ∈ c.decls k ns outer) :
    ∃ s, d ∈ c.declarations s ∧ d.kind = k := by
  unfold decls at h
  split at h
  · obtain ⟨s, -, h⟩ := mem_visible h
    exact ⟨s, h⟩
  · exact ⟨ns, mem_own.mp h⟩

theorem mem_funcs {outer : Bool} {f : FuncDecl} (h : f ∈ c.funcs ns outer) :
    ∃ s, .func f ∈ c.declarations s := by
  obtain ⟨d, hd, hf⟩ := List.mem_filterMap.mp h
  obtain ⟨s, hs, -⟩ := mem_decls hd
  cases d <;> cases hf
  exact ⟨s, hs⟩

theorem mem_scopedVars (h : (m, d) ∈ c.scopedVars ns) :
    m ∈ ns.lineage ∧ d ∈ c.declarations m ∧ d.kind = .var := by
  rcases mem_foldl_scopes h with h | ⟨s, hs, h⟩
  · cases h
  · obtain ⟨d', hd', heq⟩ := List.mem_map.mp h
    cases heq
    exact ⟨hs, mem_own.mp hd'⟩

theorem mem_types {outer : Bool} (h : p ∈ c.types ns outer) :
    ∃ s ∈ (if outer then ns.lineage else [ns]), p ∈ (c.scope s).types := by
  rcases mem_foldl_scopes h with h | h
  · cases h
  · exact h

/-! ## Classes of the global scope -/

/-- The class that a declaration is. -/
def asClass? : Decl → Option ClassDecl
  | .cls c => some c
  | _ => none

theorem classes_global : c.classes .global false = (c.declarations .global).filterMap asClass? := by
  have hkind : ∀ d : Decl, (if d.kind == .cls then asClass? d else none) = asClass? d := by
    intro d
    cases d <;> rfl
  show ((c.declarations .global).filter (·.kind == .cls)).filterMap asClass? = _
  rw [List.filterMap_filter]
  exact congrArg (List.filterMap · _) (funext hkind)

theorem mem_classes_global {d : ClassDecl} :
    d ∈ c.classes .global false ↔ .cls d ∈ c.declarations .global := by
  rw [classes_global, List.mem_filterMap]
  constructor
  · rintro ⟨x, hx, h⟩
    cases x <;> cases h
    exact hx
  · exact fun h => ⟨_, h, rfl⟩

theorem classes_modifyClass {f : ClassDecl → ClassDecl} :
    (c.modifyClass .global name f).classes .global false =
      modifyFirst (·.name == name) f (c.classes .global false) := by
  rw [classes_global, classes_global, modifyClass, declarations_modify, if_pos rfl]
  refine filterMap_modifyFirst (fun x y hx => ?_) fun x hx => ?_
  · cases x <;> cases hx
    exact ⟨rfl, rfl⟩
  · cases x <;> first | rfl | cases hx

/-- To remove a variable removes no class. -/
theorem filterMap_asClass?_eraseP (ds : List Decl) :
    (ds.eraseP (Bindings.isNamed .var name)).filterMap asClass? = ds.filterMap asClass? := by
  induction ds with
  | nil => rfl
  | cons d ds ih =>
    cases h : Bindings.isNamed .var name d with
    | true =>
      rw [List.eraseP_cons_of_pos h]
      cases d <;> first | rfl | simp [Bindings.isNamed, Decl.kind] at h
    | false => rw [List.eraseP_cons_of_neg (by simp [h]), List.filterMap_cons, List.filterMap_cons, ih]

theorem classes_push_global {d : ClassDecl} :
    (c.push .global (.cls d)).classes .global false = c.classes .global false ++ [d] := by
  rw [classes_global, classes_global, declarations, push, scope_set_self, List.filterMap_append]
  rfl

theorem mem_of_class? {d : ClassDecl} {outer : Bool} (h : c.class? ns name outer = some d) :
    d.name = name ∧ d ∈ c.classes ns outer :=
  ⟨by simpa using List.find?_some h, List.mem_of_find?_eq_some h⟩

theorem mem_of_globalClass? {d : ClassDecl} (h : c.globalClass? name = some d) :
    d.name = name ∧ d ∈ c.classes .global false := by
  obtain ⟨hname, hmem⟩ := mem_of_class? h
  obtain ⟨x, hx, hd⟩ := List.mem_filterMap.mp hmem
  obtain ⟨s, hs, hdecl, -⟩ := mem_visible hx
  obtain rfl : s = .global := by simpa [Namespace.lineage, Namespace.global, Namespace.size] using hs
  cases x <;> cases hd
  exact ⟨hname, mem_classes_global.mpr hdecl⟩

end Context

end ProgramGen

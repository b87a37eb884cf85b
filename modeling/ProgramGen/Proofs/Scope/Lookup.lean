import ProgramGen.Proofs.Scope.History
import ProgramGen.Proofs.Scope.Namespace
import ProgramGen.Proofs.Scope.Overlay

/-!
# Lexical scoping

What a name means at a namespace is its binding in the innermost scope around that binds it. Look-up
finds, of each kind, exactly what the names mean, in the order in which they are bound from the
outside in, however the symbol table came about.
-/

namespace ProgramGen

namespace Context

variable {α : Type} {name : α → String} {bound : Namespace → List α} {ns s : Namespace} {x : α}
variable {c : Context} {k : DeclKind}

/-- `x` is what its name means at `ns`, and `s` is the scope that binds it: the longest prefix of
`ns` with a binding of the name. Of several bindings in `s`, it is the last. -/
structure Means (name : α → String) (bound : Namespace → List α) (ns s : Namespace) (x : α) :
    Prop where
  around : s.segments <+: ns.segments ∧ s.segments ≠ []
  longest : ∀ m : Namespace, m.segments <+: ns.segments → (∃ y ∈ bound m, name y = name x) →
    m.segments <+: s.segments
  last : IsLast name (bound s) x

/-- The names that the prefixes of a namespace bind, from the outside in. -/
def boundNames (name : α → String) (bound : Namespace → List α) (ns : Namespace) : List String :=
  ns.lineage.flatMap fun s => (bound s).map name

/-- A list of all that names mean at a namespace. -/
structure Lexical (name : α → String) (bound : Namespace → List α) (ns : Namespace) (xs : List α) :
    Prop where
  /-- Every name is there that a prefix binds. -/
  complete : ∀ s : Namespace, s.segments <+: ns.segments → s.segments ≠ [] →
    ∀ x ∈ bound s, ∃ y ∈ xs, name y = name x
  /-- Nothing else is there than what the names mean. -/
  means : ∀ x ∈ xs, ∃ s, Means name bound ns s x
  /-- The names come as they are first bound from the outside in, each of them once. -/
  ordered : xs.Pairwise fun x y =>
    (boundNames name bound ns).idxOf (name x) < (boundNames name bound ns).idxOf (name y)

/-! ## Merging the lineage -/

/-- From the outside in, each scope is around those that follow. -/
theorem lineage_pairwise (ns : Namespace) :
    ns.lineage.Pairwise fun m m' => m.segments <+: m'.segments := by
  rw [Namespace.lineage, List.pairwise_map]
  exact List.pairwise_lt_range.imp fun h => List.take_prefix_take_left (by omega)

/-- **What remains of the bindings of the lineage is what the names mean.** -/
theorem IsLast.means (h : IsLast name (ns.lineage.flatMap bound) x) : ∃ s, Means name bound ns s x := by
  obtain ⟨before, s, after, heq, hlast, hafter⟩ := h.of_flatMap
  have hs : s ∈ ns.lineage := heq ▸ List.mem_append_right _ List.mem_cons_self
  obtain ⟨hwithin, hne⟩ := Namespace.mem_lineage.mp hs
  refine ⟨s, ⟨Namespace.isWithin_iff.mp hwithin, hne⟩, fun m hm hname => ?_, hlast⟩
  obtain ⟨y, hy, hyx⟩ := hname
  by_cases hmne : m.segments = []
  · rw [hmne]
    exact List.nil_prefix
  have hmem : m ∈ before ++ s :: after :=
    heq ▸ Namespace.mem_lineage.mpr ⟨Namespace.isWithin_iff.mpr hm, hmne⟩
  -- A prefix before `s` in the lineage is around it; one after it binds no such name.
  have hpairs := List.pairwise_append.mp (heq ▸ lineage_pairwise ns)
  rcases List.mem_append.mp hmem with hmem | hmem
  · exact hpairs.2.2 m hmem s List.mem_cons_self
  rcases List.mem_cons.mp hmem with rfl | hmem
  · exact List.prefix_refl _
  · exact absurd hyx (hafter m hmem y hy)

theorem lexical_merged (name : α → String) (bound : Namespace → List α) (ns : Namespace) :
    Lexical name bound ns (merged name (ns.lineage.flatMap bound)) := by
  have hnames : (ns.lineage.flatMap bound).map name = boundNames name bound ns := List.map_flatMap
  refine ⟨fun s hs hne x hx => ?_, fun x hx => (mem_merged.mp hx).means, hnames ▸ pairwise_merged⟩
  have hmem : s ∈ ns.lineage := Namespace.mem_lineage.mpr ⟨Namespace.isWithin_iff.mpr hs, hne⟩
  have hname : name x ∈ (ns.lineage.flatMap bound).map name :=
    List.mem_map_of_mem (List.mem_flatMap.mpr ⟨s, hmem, hx⟩)
  exact List.mem_map.mp (mem_map_merged.mpr hname)

/-- Without the scopes that bind them, the variables with scopes are the visible variables. -/
theorem map_scopedVars : (c.scopedVars ns).map (·.2) = c.vars ns true := by
  have hown : ∀ s, ((c.own .var s).map (s, ·)).map (·.2) = c.own .var s := by
    intro s
    rw [List.map_map]
    exact List.map_id _
  rw [scopedVars_eq_merged, map_merged, List.map_flatMap]
  simp only [hown]
  exact visible_eq_merged.symm

/-- **The scope of a variable is the one that binds what its name means.** -/
theorem means_of_mem_scopedVars {p : Namespace × Decl} (hp : p ∈ c.scopedVars ns) :
    Means Decl.name (c.own .var) ns p.1 p.2 := by
  rw [scopedVars_eq_merged] at hp
  obtain ⟨s, haround, hlongest, hpair⟩ := (mem_merged.mp hp).means
  obtain ⟨d, rfl, hlast⟩ := hpair.of_map
  refine ⟨haround, fun m hm hname => hlongest m hm ?_, hlast⟩
  obtain ⟨y, hy, hname⟩ := hname
  exact ⟨(m, y), List.mem_map_of_mem hy, hname⟩

theorem kind_of_mem_decls {outer : Bool} {d : Decl} (h : d ∈ c.decls k ns outer) : d.kind = k := by
  obtain ⟨s, -, hkind⟩ := mem_decls h
  exact hkind

/-- A reading that all declarations of the kind have loses none of them. -/
theorem map_filterMap_decls {β : Type} {f : Decl → Option β} {g : β → Decl} {outer : Bool}
    (h : ∀ d : Decl, d.kind = k → (f d).map g = some d) :
    ((c.decls k ns outer).filterMap f).map g = c.decls k ns outer := by
  rw [List.map_filterMap, List.filterMap_congr fun d hd => h d (kind_of_mem_decls hd),
    List.filterMap_some]

theorem map_funcs (outer : Bool) : (c.funcs ns outer).map Decl.func = c.decls .func ns outer :=
  map_filterMap_decls fun d hd => by
    cases d <;> cases hd
    rfl

theorem map_classes (outer : Bool) : (c.classes ns outer).map Decl.cls = c.decls .cls ns outer :=
  map_filterMap_decls fun d hd => by
    cases d <;> cases hd
    rfl

theorem map_lambdas (outer : Bool) :
    (c.lambdas ns outer).map Decl.lambda = c.decls .lambda ns outer :=
  map_filterMap_decls fun d hd => by
    cases d <;> cases hd
    rfl

/-! ## Look-up -/

/-- Look-up finds what names mean, where `bound` tells what each scope binds. -/
structure LooksUp (c : Context) (bound : Namespace → Bindings) (ns : Namespace) : Prop where
  decls : ∀ k, Lexical Decl.name (fun s => (bound s).ofKind k) ns (c.decls k ns true)
  /-- Apart from the scopes around, a scope has its own bindings in order of registration. -/
  ownDecls : ∀ k, c.decls k ns false = (bound ns).ofKind k
  /-- No function, class or closure is lost. -/
  funcs : ∀ outer, (c.funcs ns outer).map Decl.func = c.decls .func ns outer
  classes : ∀ outer, (c.classes ns outer).map Decl.cls = c.decls .cls ns outer
  lambdas : ∀ outer, (c.lambdas ns outer).map Decl.lambda = c.decls .lambda ns outer
  scopedVars : (c.scopedVars ns).map (·.2) = c.vars ns true
  /-- A variable comes with the scope that binds it. -/
  scopes : ∀ p ∈ c.scopedVars ns, Means Decl.name (fun s => (bound s).ofKind .var) ns p.1 p.2
  types : Lexical TypeParam.name (fun s => (bound s).types) ns (c.types ns true)
  ownTypes : c.types ns false = (bound ns).types

theorem own_after (ops : List Operation) (k : DeclKind) :
    (after ops).own k = fun s => (Bindings.left ops s).ofKind k := by
  funext s
  rw [own, scope_after]
  rfl

/-- **Look-up is lexical**, whatever operations the symbol table has come about by: at every
namespace and for every kind it finds what the names mean, given what the operations leave in each
scope. There a name is bound at most once: for types in any case, and for each kind of declaration
unless changes in place have renamed one. -/
theorem after_looksUp (ops : List Operation) (ns : Namespace) :
    (after ops).LooksUp (Bindings.left ops) ns ∧
      (∀ s, (Bindings.left ops s).DistinctTypes) ∧
      ((∀ op ∈ ops, op.KeepsNames) → ∀ s, (Bindings.left ops s).Distinct) := by
  have hscope : (after ops).scope = Bindings.left ops := funext fun s => scope_after ops
  refine ⟨⟨?decls, fun k => congrFun (own_after ops k) ns, map_funcs, map_classes, map_lambdas,
    map_scopedVars, ?scopes, ?types, ?ownTypes⟩, Bindings.distinctTypes_left ops, Bindings.distinct_left⟩
  case decls =>
    intro k
    have := lexical_merged Decl.name ((after ops).own k) ns
    rwa [← visible_eq_merged, own_after] at this
  case scopes =>
    intro p hp
    have := means_of_mem_scopedVars hp
    rwa [own_after] at this
  case types =>
    have := lexical_merged TypeParam.name (fun s => ((after ops).scope s).types) ns
    rwa [← types_eq_merged, hscope] at this
  case ownTypes =>
    rw [← hscope]
    exact merged_eq_self (hscope ▸ Bindings.distinctTypes_left ops ns)

/-- A variable of the top level, hidden in a function by a parameter of the same name. -/
def shadowing : List Operation :=
  [.addVar .global (.field ⟨"x", Language.kotlin.anyType, true, false, false⟩),
    .addVar (Namespace.global.child "f") (.param ⟨"x", Language.kotlin.stringType, none⟩),
    .change .global .var "x" id]

theorem shadowing_looksUp :
    (∀ op ∈ shadowing, op.KeepsNames) ∧
      (after shadowing).LooksUp (Bindings.left shadowing) (Namespace.global.child "f") ∧
      (∀ s, (Bindings.left shadowing s).Distinct) ∧
      (after shadowing).vars (Namespace.global.child "f") true =
        [.param ⟨"x", Language.kotlin.stringType, none⟩] := by
  have hkeep : ∀ op ∈ shadowing, op.KeepsNames := by
    simp [shadowing, Operation.KeepsNames]
  obtain ⟨hlook, -, hdistinct⟩ := after_looksUp shadowing (Namespace.global.child "f")
  refine ⟨hkeep, hlook, hdistinct hkeep, ?_⟩
  show (after shadowing).visible .var _ = _
  rw [visible_eq_merged, own_after]
  rfl

end Context

end ProgramGen

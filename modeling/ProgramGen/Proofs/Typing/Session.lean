import ProgramGen.Proofs.Names.Pool
import ProgramGen.Proofs.Run.Context
import ProgramGen.Proofs.Run.Logic
import ProgramGen.Proofs.Scope.Members
import ProgramGen.Proofs.Typing.Assignable
import ProgramGen.Synthesis.Session
import Mathlib.Data.List.Nodup

/-!
# Well-typed sessions

The types that a session speaks of are over the classes of its language and of its program, and
these classes form a consistent table. A run keeps this so, whatever it ends in: what it registers
is over the table, and a class that it declares mentions its own parameters alone. That is seen at
the scopes: no type parameter is bound around all classes, nor in the scope of a class that is yet
to be named.
-/

namespace ProgramGen

/-! ## Types of declarations -/

/-- The types that a function states, its type parameters among them. -/
def FuncDecl.types (f : FuncDecl) : List Ty := f.ret :: f.paramTypes ++ f.typeParams.map .param

/-- The types that a class states in its header and for its members. -/
def ClassDecl.types (c : ClassDecl) : List Ty :=
  c.typeParams.map .param ++ c.supertypes ++ c.fieldTypes ++ c.funcs.flatMap (·.types)

/-- The types that a declaration states; those of a closure are not read back. -/
def Decl.types : Decl → List Ty
  | .var v => [v.ty]
  | .param p => [p.ty]
  | .field f => [f.ty]
  | .func f => f.types
  | .cls c => c.types
  | .lambda _ => []

/-! ## The table of a session -/

/-- The generic classes of a session: those of its language and those that its program declares. -/
def Session.HasClass (s : Session) (c : TypeCtor) : Prop :=
  s.language.HasClass c ∨ ∃ d ∈ s.classes, d.isGeneric ∧ d.ctor = c

/-- What the types of a session are built from. -/
def Session.vocabulary (s : Session) : Vocabulary := ⟨(· = s.language), s.HasClass, False⟩

/-- What the header of a declared class keeps to. -/
structure ClassDecl.HeaderOk (l : Language) (c : ClassDecl) : Prop where
  name_ne : ∀ d, l.HasClass d → d.name ≠ c.name
  telescoped : Telescoped [] c.typeParams
  supers_vary : ∀ t ∈ c.supertypes, t.VariesIn c.typeParams .covariant

/-- The types of a class are those of its header, of its fields and of its functions. -/
theorem ClassDecl.mem_types {c : ClassDecl} {t : Ty} : t ∈ c.types ↔
    t ∈ c.header.types ∨ (∃ f ∈ c.fields, t = f.ty) ∨ ∃ f ∈ c.funcs, t ∈ f.types := by
  simp [types, header, fieldTypes, supertypes, or_assoc, eq_comm]

theorem ClassDecl.ctor_eq_of_header {c d : ClassDecl} (h : c.header = d.header) :
    c.ctor = d.ctor := by
  show c.header.ctor = d.header.ctor
  rw [h]

theorem ClassDecl.isGeneric_eq_of_header {c d : ClassDecl} (h : c.header = d.header) :
    c.isGeneric = d.isGeneric := by
  show c.header.isGeneric = d.header.isGeneric
  rw [h]

theorem ClassDecl.HeaderOk.of_header {l : Language} {c d : ClassDecl} (hc : c.HeaderOk l)
    (h : c.header = d.header) : d.HeaderOk l := by
  have hcc : c.header.HeaderOk l := ⟨hc.name_ne, hc.telescoped, hc.supers_vary⟩
  rw [h] at hcc
  exact ⟨hcc.name_ne, hcc.telescoped, hcc.supers_vary⟩

/-- Scopes where no type parameter may be bound: the scope around all classes, and those of the
classes that are yet to be named. -/
def Session.Reserved (s : Session) (ns : Namespace) : Prop :=
  ns = .global ∨ ∃ w, s.source.pool.Offers w ∧ ns = Namespace.global.child (capitalize w)

/-- All that a session has registered is over its classes, and these are consistent. -/
structure Session.WellTyped (s : Session) : Prop where
  pool : s.source.pool.Sound
  rooted : s.frame.ns.segments ≠ []
  over_types : ∀ ns, ∀ d ∈ s.context.declarations ns, ∀ t ∈ d.types, t.Over s.vocabulary
  over_params : ∀ ns, ∀ p ∈ (s.context.scope ns).types, (Ty.param p).Over s.vocabulary
  headers : ∀ c ∈ s.classes, c.HeaderOk s.language
  distinct : (s.classes.map (·.name)).Nodup
  reserved : ∀ ns, s.Reserved ns → (s.context.scope ns).types = []
  distinct_params : ∀ ns, ((s.context.scope ns).types.map (·.name)).Nodup

/-- What a run leaves as it was, and what it only adds to. -/
structure Session.Grows (s s' : Session) : Prop where
  language : s'.language = s.language
  frame : s'.frame = s.frame
  offers : ∀ w, s'.source.pool.Offers w → s.source.pool.Offers w
  headers : ∀ c ∈ s.classes, ∃ c' ∈ s'.classes, c'.header = c.header

/-- A step from a well-typed session leads to a well-typed session with all its classes. -/
def Session.Typed (s s' : Session) : Prop := s.WellTyped → s.Grows s' ∧ s'.WellTyped

namespace Session

variable {s s' s₁ s₂ s₃ : Session} {t : Ty} {c d : ClassDecl} {C : Context}

/-! ## Growth -/

theorem Grows.refl (s : Session) : s.Grows s := ⟨rfl, rfl, fun _ h => h, fun c hc => ⟨c, hc, rfl⟩⟩

theorem Grows.trans (h : s₁.Grows s₂) (h' : s₂.Grows s₃) : s₁.Grows s₃ where
  language := h'.language.trans h.language
  frame := h'.frame.trans h.frame
  offers w hw := h.offers w (h'.offers w hw)
  headers c hc := by
    obtain ⟨c₂, hc₂, h₂⟩ := h.headers c hc
    obtain ⟨c₃, hc₃, h₃⟩ := h'.headers c₂ hc₂
    exact ⟨c₃, hc₃, h₃.trans h₂⟩

theorem Grows.atStream (s : Session) (stream : Stream) : s.Grows (s.atStream stream) :=
  ⟨rfl, rfl, fun _ h => h, fun c hc => ⟨c, hc, rfl⟩⟩

instance : IsPreorder Session Typed where
  refl s hs := ⟨.refl s, hs⟩
  trans _ _ _ h h' hs := ⟨(h hs).1.trans (h' (h hs).2).1, (h' (h hs).2).2⟩

instance : AllowsDraws Typed where
  draw s stream hs := ⟨.atStream s stream,
    ⟨hs.pool, hs.rooted, hs.over_types, hs.over_params, hs.headers, hs.distinct, hs.reserved,
      hs.distinct_params⟩⟩

theorem WellTyped.atStream (hs : s.WellTyped) (stream : Stream) : (s.atStream stream).WellTyped :=
  (AllowsDraws.draw (R := Typed) s stream hs).2

/-- The counters of a session are seen by no type. -/
theorem typed_withCounts (hoisted : Std.HashMap Namespace Nat) (lambdas loops branches : Nat) :
    s.Typed { s with
      hoisted := hoisted, lambdaCount := lambdas, loopCount := loops, branchCount := branches } :=
  fun hs => ⟨⟨rfl, rfl, fun _ h => h, fun c hc => ⟨c, hc, rfl⟩⟩,
    ⟨hs.pool, hs.rooted, hs.over_types, hs.over_params, hs.headers, hs.distinct, hs.reserved,
      hs.distinct_params⟩⟩

theorem WellTyped.withFrame {f : Frame} (hs : s.WellTyped) (hf : f.ns.segments ≠ []) :
    WellTyped { s with frame := f } :=
  ⟨hs.pool, hf, hs.over_types, hs.over_params, hs.headers, hs.distinct, hs.reserved,
      hs.distinct_params⟩

theorem WellTyped.withUnfinished {names : List String} (hs : s.WellTyped) :
    WellTyped { s with unfinished := names } :=
  ⟨hs.pool, hs.rooted, hs.over_types, hs.over_params, hs.headers, hs.distinct, hs.reserved,
      hs.distinct_params⟩

/-- A class is generic, and is so as a type, by its header. -/
theorem hasClass_of_header (hc : c ∈ s.classes) (h : c.header = d.header) (hd : d.isGeneric) :
    s.HasClass d.ctor := by
  exact .inr ⟨c, hc, (c.isGeneric_eq_of_header h).trans hd, c.ctor_eq_of_header h⟩

theorem Grows.hasClass (h : s.Grows s') {c : TypeCtor} (hc : s.HasClass c) : s'.HasClass c := by
  rcases hc with hc | ⟨d, hd, hgeneric, rfl⟩
  · exact .inl (h.language ▸ hc)
  · obtain ⟨d', hd', hheader⟩ := h.headers d hd
    exact hasClass_of_header hd' hheader hgeneric

/-- **Types stay over a session that grows.** -/
theorem Grows.over (h : s.Grows s') (ht : t.Over s.vocabulary) : t.Over s'.vocabulary :=
  ht.mono (fun _ hl => hl.trans h.language.symm) (fun _ hc => h.hasClass hc) id

theorem Grows.reserved (h : s.Grows s') {ns : Namespace} (hns : s'.Reserved ns) : s.Reserved ns :=
  hns.imp_right fun ⟨w, hw, heq⟩ => ⟨w, h.offers w hw, heq⟩

/-! ## The table -/

theorem WellTyped.class_over (hs : s.WellTyped) (hc : c ∈ s.classes) :
    ∀ t ∈ c.types, t.Over s.vocabulary :=
  hs.over_types .global (.cls c) (Context.mem_classes_global.mp hc)

/-- The types of a class stay over the session with other members that are. -/
theorem WellTyped.members_over (hs : s.WellTyped) (hc : c ∈ s.classes) (hheader : d.header = c.header)
    (hfields : ∀ f ∈ d.fields, f ∈ c.fields ∨ f.ty.Over s.vocabulary)
    (hfuncs : ∀ f ∈ d.funcs, f ∈ c.funcs ∨ ∀ t ∈ f.types, t.Over s.vocabulary) :
    ∀ t ∈ d.types, t.Over s.vocabulary := by
  intro t ht
  have hold : ∀ t ∈ c.types, t.Over s.vocabulary := hs.class_over hc
  rcases ClassDecl.mem_types.mp ht with h | ⟨f, hf, rfl⟩ | ⟨f, hf, h⟩
  · exact hold t (ClassDecl.mem_types.mpr (.inl (hheader ▸ h)))
  · rcases hfields f hf with hf | hf
    · exact hold _ (ClassDecl.mem_types.mpr (.inr (.inl ⟨f, hf, rfl⟩)))
    · exact hf
  · rcases hfuncs f hf with hf | hf
    · exact hold _ (ClassDecl.mem_types.mpr (.inr (.inr ⟨f, hf, h⟩)))
    · exact hf t h

/-- A class is known by its name. -/
theorem WellTyped.eq_of_name (hs : s.WellTyped) (hc : c ∈ s.classes) (hd : d ∈ s.classes)
    (h : c.name = d.name) : c = d :=
  List.inj_on_of_nodup_map hs.distinct hc hd h

theorem WellTyped.super_over (hs : s.WellTyped) (hc : c ∈ s.classes) (ht : t ∈ c.supertypes) :
    t.Over s.vocabulary :=
  hs.class_over hc t (by simp [ClassDecl.types, ht])

theorem WellTyped.typeParam_over (hs : s.WellTyped) (hc : c ∈ s.classes) {p : TypeParam}
    (hp : p ∈ c.typeParams) : (Ty.param p).Over s.vocabulary :=
  hs.class_over hc _ (by simp [ClassDecl.types, hp])

/-- **The classes of a well-typed session are a consistent table.** -/
def WellTyped.table (hs : s.WellTyped) : ClassTable where
  toVocabulary := s.vocabulary
  eq_of_name c d hc hd h := by
    rcases hc with hc | ⟨c, hc, -, rfl⟩
    · rcases hd with hd | ⟨d, hd, -, rfl⟩
      · exact hc.eq_of_name hd h
      · exact absurd h ((hs.headers d hd).name_ne _ hc)
    · rcases hd with hd | ⟨d, hd, -, rfl⟩
      · exact absurd h.symm ((hs.headers c hc).name_ne _ hd)
      · rw [hs.eq_of_name hc hd h]
  supers_over c hc t ht := by
    rcases hc with hc | ⟨c, hc, -, rfl⟩
    · rw [hc.supers_eq, List.mem_singleton] at ht
      exact ht ▸ Ty.over_builtin rfl .any
    · exact hs.super_over hc ht
  supers_vary c hc t ht := by
    rcases hc with hc | ⟨c, hc, -, rfl⟩
    · rw [hc.supers_eq, List.mem_singleton] at ht
      exact ht ▸ .builtin
    · exact (hs.headers c hc).supers_vary t ht

theorem over_builtin (s : Session) (k : BuiltinKind) : (s.language.builtin k).Over s.vocabulary :=
  Ty.over_builtin rfl k

/-! ## Changes of the symbol table -/

/-- Symbol tables with the same headers make the same vocabulary. -/
theorem vocabulary_withContext
    (h : (s.withContext C).classes.map ClassDecl.header = s.classes.map ClassDecl.header) :
    (s.withContext C).vocabulary = s.vocabulary := by
  have hmem : ∀ {xs ys : List ClassDecl}, xs.map ClassDecl.header = ys.map ClassDecl.header →
      ∀ c ∈ xs, ∃ d ∈ ys, d.header = c.header := by
    intro xs ys h c hc
    exact List.mem_map.mp (h ▸ List.mem_map_of_mem hc)
  have hclass : (s.withContext C).HasClass = s.HasClass := by
    refine funext fun c => propext (or_congr Iff.rfl ⟨?_, ?_⟩)
    · rintro ⟨d, hd, hgeneric, rfl⟩
      obtain ⟨d', hd', hheader⟩ := hmem h d hd
      exact ⟨d', hd', (d'.isGeneric_eq_of_header hheader).trans hgeneric,
        d'.ctor_eq_of_header hheader⟩
    · rintro ⟨d, hd, hgeneric, rfl⟩
      obtain ⟨d', hd', hheader⟩ := hmem h.symm d hd
      exact ⟨d', hd', (d'.isGeneric_eq_of_header hheader).trans hgeneric,
        d'.ctor_eq_of_header hheader⟩
  unfold vocabulary
  rw [hclass]
  rfl

/-- A change of the symbol table that keeps the headers of classes and registers types over them
only. -/
theorem typed_withContext
    (hclasses : (s.withContext C).classes.map ClassDecl.header = s.classes.map ClassDecl.header)
    (hdecls : ∀ ns, ∀ d ∈ C.declarations ns, d ∈ s.context.declarations ns ∨
      ∀ t ∈ d.types, t.Over s.vocabulary)
    (htypes : ∀ ns, (C.scope ns).types.Sublist (s.context.scope ns).types ∨ (¬s.Reserved ns ∧
      (∀ p ∈ (C.scope ns).types, (Ty.param p).Over s.vocabulary) ∧
        ((C.scope ns).types.map (·.name)).Nodup)) :
    s.Typed (s.withContext C) := by
  intro hs
  have hvocabulary := vocabulary_withContext hclasses
  refine ⟨⟨rfl, rfl, fun _ h => h, fun c hc => ?_⟩, ?_⟩
  · have hmem : c.header ∈ (s.withContext C).classes.map ClassDecl.header :=
      hclasses ▸ List.mem_map_of_mem hc
    obtain ⟨d, hd, h⟩ := List.mem_map.mp hmem
    exact ⟨d, hd, h⟩
  · refine ⟨hs.pool, hs.rooted, ?_, ?_, ?_, ?_, ?_, ?_⟩
    · intro ns d hd t ht
      rw [hvocabulary]
      rcases hdecls ns d hd with hd | hd
      · exact hs.over_types ns d hd t ht
      · exact hd t ht
    · intro ns p hp
      rw [hvocabulary]
      rcases htypes ns with h | ⟨-, h, -⟩
      · exact hs.over_params ns p (h.subset hp)
      · exact h p hp
    · intro c hc
      have hmem : c.header ∈ s.classes.map ClassDecl.header :=
        hclasses ▸ List.mem_map_of_mem hc
      obtain ⟨d, hd, h⟩ := List.mem_map.mp hmem
      exact (hs.headers d hd).of_header h
    · have hnames : ∀ xs : List ClassDecl,
          (xs.map ClassDecl.header).map (·.name) = xs.map (·.name) := by
        intro xs
        rw [List.map_map]
        rfl
      rw [← hnames, hclasses, hnames]
      exact hs.distinct
    · intro ns hns
      rcases htypes ns with h | ⟨h, -, -⟩
      · rw [hs.reserved ns hns] at h
        exact List.sublist_nil.mp h
      · exact absurd hns h
    · intro ns
      rcases htypes ns with h | ⟨-, -, h⟩
      · exact (hs.distinct_params ns).sublist (h.map _)
      · exact h

theorem classes_eq (s : Session) :
    s.classes = (s.context.declarations .global).filterMap Context.asClass? :=
  Context.classes_global

/-- New bindings for one scope. -/
theorem typed_set {ns : Namespace} {b : Bindings}
    (hclasses : ns = .global → (b.decls.filterMap Context.asClass?).map ClassDecl.header =
      s.classes.map ClassDecl.header)
    (hdecls : ∀ d ∈ b.decls, d ∈ s.context.declarations ns ∨ ∀ t ∈ d.types, t.Over s.vocabulary)
    (htypes : b.types.Sublist (s.context.scope ns).types ∨ (¬s.Reserved ns ∧
      (∀ p ∈ b.types, (Ty.param p).Over s.vocabulary) ∧ (b.types.map (·.name)).Nodup)) :
    s.Typed (s.withContext (s.context.set ns b)) := by
  refine typed_withContext ?_ (fun m d hd => ?_) (fun m => ?_)
  · rw [classes_eq, withContext, Context.declarations, Context.scope_set]
    split
    · exact hclasses ‹_›
    · rw [classes_eq]
      rfl
  · rw [Context.declarations, Context.scope_set] at hd
    split at hd
    · exact ‹ns = m› ▸ hdecls d hd
    · exact .inl hd
  · rw [Context.scope_set]
    split
    · exact ‹ns = m› ▸ htypes
    · exact .inl (List.Sublist.refl _)

/-- A change of one declaration that keeps it a class with its header, or no class. -/
theorem typed_modify {ns : Namespace} {k : DeclKind} {name : String} {f : Decl → Decl}
    (hheader : ∀ d, (Context.asClass? (f d)).map ClassDecl.header =
      (Context.asClass? d).map ClassDecl.header)
    (htypes : ∀ d ∈ s.context.declarations ns, Bindings.isNamed k name d →
      ∀ t ∈ (f d).types, t.Over s.vocabulary) :
    s.Typed (s.withContext (s.context.modify ns k name f)) := by
  refine typed_set (fun h => ?_) (fun d hd => ?_) (.inl (List.Sublist.refl _))
  · have hkeep : ∀ ds : List Decl, (ds.filterMap Context.asClass?).map ClassDecl.header =
        (ds.map fun d => (Context.asClass? d).map ClassDecl.header).filterMap id := by
      intro ds
      rw [List.map_filterMap, List.filterMap_map]
      rfl
    rw [hkeep, Context.map_modifyFirst fun d _ _ => hheader d, ← hkeep, classes_eq, h]
    rfl
  · rcases Context.mem_modifyFirst hd with hd | ⟨d', hd', hnamed, rfl⟩
    · exact .inl hd
    · exact .inr (htypes d' hd' hnamed)

/-- A change of the members of a class. -/
theorem typed_modifyClass {name : String} {f : ClassDecl → ClassDecl}
    (hheader : ∀ c, (f c).header = c.header)
    (htypes : ∀ c ∈ s.classes, c.name = name → ∀ t ∈ (f c).types, t.Over s.vocabulary) :
    s.Typed (s.withContext (s.context.modifyClass .global name f)) := by
  refine typed_modify (fun d => ?_) fun d hd hnamed => ?_
  · cases d <;> simp [Context.asClass?, hheader]
  · cases d with
    | cls c =>
      simp only [Bindings.isNamed, Bool.and_eq_true, beq_iff_eq] at hnamed
      exact htypes c (Context.mem_classes_global.mpr hd) hnamed.2
    | _ => simp [Bindings.isNamed, Decl.kind] at hnamed

theorem typed_modifyFunc {ns : Namespace} {name : String} {f : FuncDecl}
    (htypes : ∀ t ∈ f.types, t.Over s.vocabulary) :
    s.Typed (s.withContext (s.context.modifyFunc ns name fun _ => f)) := by
  refine typed_modify (fun d => ?_) fun d hd hnamed => ?_
  · cases d <;> rfl
  · cases d with
    | func d => exact htypes
    | _ => simp [Bindings.isNamed, Decl.kind] at hnamed

theorem typed_removeVar {ns : Namespace} {name : String} :
    s.Typed (s.withContext (s.context.removeVar ns name)) := by
  refine typed_set (fun h => ?_) (fun d hd => .inl (List.mem_of_mem_eraseP hd)) (.inl (List.Sublist.refl _))
  rw [Context.filterMap_asClass?_eraseP, classes_eq, h]
  rfl

theorem typed_removeType {ns : Namespace} {name : String} :
    s.Typed (s.withContext (s.context.removeType ns name)) := by
  refine typed_set (fun h => ?_) (fun d hd => .inl hd) (.inl List.eraseP_sublist)
  rw [classes_eq, h]
  rfl

end Session

end ProgramGen

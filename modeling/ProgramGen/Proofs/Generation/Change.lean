import ProgramGen.Proofs.Generation.Register

/-!
# Changes of the symbol table

Whatever the generator registers, at most one declaration enters one scope, and at most one class
changes or is new. What has to be known of such a change to make it a step is stated once; then come
the declarations of a scope, classes, and their members.
-/

namespace ProgramGen

namespace Session

variable {s s' : Session} {P : Permit} {ns m : Namespace} {ds : List Decl} {d : Decl} {n : String}
variable {g : ClassDecl → ClassDecl} {new : List ClassDecl} {c c' : ClassDecl}

/-- One declaration at most is added, to one scope; the classes that are in the making may change by
`g`, and one class at most is new. -/
structure Change (P : Permit) (s s' : Session) (ns : Namespace) (ds : List Decl)
    (g : ClassDecl → ClassDecl) (new : List ClassDecl) : Prop where
  grown : s.Grown s' ns ds
  one : ds.length ≤ 1
  welcome : ∀ d ∈ ds, s.Welcomes ns d
  opened : s'.Opened ns
  spent : ∀ d ∈ ds, ∀ n ∈ d.names, s'.Spent n
  permitted : ns = .global ∨ P.scopes ns ∨ ¬s.Opened ns
  taken : ∀ d ∈ ds, ∀ n ∈ d.names, s.Spent n → s.Taken n ∨ P.names n
  onlyFields : ns.className? ≠ none → ∀ d ∈ ds, d.kind = .var → ∃ f, d = .field f
  params : ∀ p, Decl.param p ∈ ds → s.Opened ns → P.making ns
  mutables : ∀ v, Decl.var v ∈ ds → v.isFinal = false → ¬s.Spent v.name
  others : ∀ m, m ≠ ns → m ≠ .global → s'.context.scope m = s.context.scope m
  types : ∀ m, (s'.context.scope m).types = (s.context.scope m).types
  inside : ∀ m, s.Opened m → m.className? ≠ none → ¬P.making m →
    (s'.decls m).filter Decl.isMember = (s.decls m).filter Decl.isMember
  classes : s'.classes = s.classes.map g ++ new
  header : ∀ c ∈ s.classes, (g c).name = c.name ∧ (g c).supers = c.supers ∧
    (g c).typeParams = c.typeParams
  finished : ∀ c ∈ s.classes, s.isUnfinished c.name = false → g c = c
  fields : ∀ c ∈ s.classes, ∀ f ∈ c.fields, f ∈ (g c).fields
  fieldNames : ∀ c ∈ s.classes, ∀ f ∈ (g c).fields, f ∈ c.fields ∨
    (s.Spent f.name → s.HasField f.name f.isFinal)
  newFields : ∀ c ∈ new, c.fields = []
  newOne : new.length ≤ 1
  newTypes : ∀ c ∈ new, (s.context.scope c.scope).types = c.typeParams
  newSupers : ∀ c ∈ new, ∀ sup ∈ c.supers, ∃ d ∈ s.classes, d.name = sup.ty.name
  members : ∀ c ∈ s'.classes,
    c.fields = s'.context.fieldsIn c.scope ∧ c.funcs = s'.context.funcsIn c.scope
  fieldScopes : ∀ ns f, .field f ∈ s'.decls ns → ∃ c ∈ s'.classes, ns = c.scope
  classOk : s.Leads s' → ∀ c ∈ s'.classes, c ∈ s.classes ∨ s'.ClassOk c
  trees : s.Leads s' → ∀ d ∈ s'.decls .global, d.kind ≠ .cls →
    d ∈ s.decls .global ∨ s'.Fits .global none noTargets d.places
  shaped : ∀ m, ∀ d ∈ s'.decls m, d.kind ≠ .cls → d ∈ s.decls m ∨ s.Shapes d
  locals : s.Leads s' → s.frame.ns.IsLocal → ∀ d ∈ s'.localDecls, d ∈ s.localDecls ∨ s'.DeclFits d

namespace Change

variable (h : Change P s s' ns ds g new) (hp : s.Passes s')
include h hp

theorem leads (hr : s'.Registered) : s.Leads s' where
  language := hp.language
  config := hp.config
  spent := hp.spent
  keeps _ _ := h.grown.hasMutable_of
  mutables m n hn hm := by
    rcases h.grown.hasMutable hm with hm | ⟨x, hx, rfl, hfinal⟩
    · exact hm
    · exact absurd hn (h.mutables x hx hfinal)
  members name n hf := by
    obtain ⟨c, hc, rfl, f, hf, hrest⟩ := hf
    refine ⟨g c, ?_, (h.header c hc).1, f, h.fields c hc f hf, hrest⟩
    rw [h.classes]
    exact List.mem_append_left _ (List.mem_map_of_mem hc)
  fields n b hn hf := by
    obtain ⟨c', hc', f, hf, rfl, rfl⟩ := hf
    rw [h.classes, List.mem_append] at hc'
    rcases hc' with hc' | hc'
    · obtain ⟨c, hc, rfl⟩ := List.mem_map.mp hc'
      rcases h.fieldNames c hc f hf with hf | hf
      · exact ⟨c, hc, f, hf, rfl, rfl⟩
      · exact hf hn
    · rw [h.newFields c' hc'] at hf
      cases hf
  finished c hc hfinished := by
    refine ⟨?_, hp.isUnfinished.trans hfinished⟩
    rw [h.classes]
    refine List.mem_append_left _ (List.mem_map.mpr ⟨c, hc, h.finished c hc hfinished⟩)
  distinct _ := hr.distinctClasses
  inSight _ _ _ := h.grown.inSight
  loopLocals _ := h.grown.loopLocal
  funcs _ _ := h.grown.func

omit hp in
/-- A scope that is no longer empty was not empty, or is the one that grew. -/
theorem scope_ne_empty (hm : m ≠ ns) (hne : s'.context.scope m ≠ .empty) : s.context.scope m ≠ .empty := by
  intro hempty
  refine hne ?_
  have hdecls : s'.decls m = [] := by
    have := h.grown m
    rw [if_neg hm, List.append_nil, show s.decls m = [] from congrArg Bindings.decls hempty] at this
    exact List.map_eq_nil_iff.mp this
  have htypes : (s'.context.scope m).types = [] :=
    (h.types m).trans (congrArg Bindings.types hempty)
  show s'.context.scope m = ⟨[], []⟩
  rw [← hdecls, ← htypes]
  rfl

omit hp in
/-- A class that is new has its superclasses among those that were there. -/
theorem exists_super_of_new (hc : c ∈ new) {before : List ClassDecl} (hbefore : s.classes.map g <+: before) :
    ∀ sup ∈ c.supers, ∃ d ∈ before, d.name = sup.ty.name := by
  intro sup hsup
  obtain ⟨d, hd, hname⟩ := h.newSupers c hc sup hsup
  exact ⟨g d, hbefore.subset (List.mem_map_of_mem hd), (h.header d hd).1.trans hname⟩

omit hp in
/-- A class that was there has its superclasses before it; one that is new comes after all. -/
theorem ordered (hs : s.Sound) {before after : List ClassDecl} (heq : s'.classes = before ++ c :: after) :
    ∀ sup ∈ c.supers, ∃ d ∈ before, d.name = sup.ty.name := by
  rw [h.classes] at heq
  rcases List.append_eq_append_iff.mp heq with ⟨rest, hbefore, hnew⟩ | ⟨rest, hmap, hafter⟩
  · exact h.exists_super_of_new (hnew ▸ by simp) ⟨rest, hbefore.symm⟩
  · cases rest with
    | nil =>
      rw [List.append_nil] at hmap
      rw [List.nil_append] at hafter
      exact h.exists_super_of_new (hafter ▸ List.mem_cons_self) ⟨[], by rw [List.append_nil, hmap]⟩
    | cons x rest =>
      obtain ⟨rfl, -⟩ := List.cons.inj hafter
      obtain ⟨l₁, l₂, hl, hl₁, hl₂⟩ := List.map_eq_append_iff.mp hmap
      obtain ⟨y, l₃, rfl, rfl, -⟩ := List.map_eq_cons_iff.mp hl₂
      have hy : y ∈ s.classes := hl ▸ List.mem_append_right _ List.mem_cons_self
      rw [(h.header y hy).2.1]
      intro sup hsup
      obtain ⟨d, hd, hname⟩ := hs.ordered l₁ y l₃ hl sup hsup
      refine ⟨g d, hl₁ ▸ List.mem_map_of_mem hd, ?_⟩
      exact (h.header d (hl ▸ List.mem_append_left _ hd)).1.trans hname

omit hp in
theorem ownTypes (hs : s.Sound) (hc : c ∈ s'.classes) :
    (s'.context.scope c.scope).types = c.typeParams := by
  rw [h.types]
  rw [h.classes, List.mem_append] at hc
  rcases hc with hc | hc
  · obtain ⟨c, hmem, rfl⟩ := List.mem_map.mp hc
    obtain ⟨hname, -, htypes⟩ := h.header c hmem
    rw [htypes, ← hs.ownTypes c hmem]
    unfold ClassDecl.scope
    rw [hname]
  · exact h.newTypes c hc

theorem registered (hs : s.Sound) : s'.Registered :=
  hs.toRegistered.grow h.grown hp.spent (fun _ => h.scope_ne_empty) h.opened h.one h.welcome h.spent
    h.onlyFields

theorem sound (hs : s.Sound) (hl : s.Leads s') : s'.Sound :=
  hs.advance hl (h.registered hp hs) hp.pool (hp.canEnter hs) (hp.making hs)
    (fun _ _ _ hf => hp.isUnfinished.symm.trans hf) h.members h.fieldScopes
    ((h.types .global).trans hs.globalTypes) (fun _ => h.ownTypes hs) (fun m _ hp => .inl (h.types m ▸ hp))
    (h.classOk hl) (fun _ _ _ => h.ordered hs) (h.trees hl)
    fun m d hd hkind => (h.shaped m d hd hkind).imp_right hl.shapes

/-- **Such a change is a step.** -/
theorem step (hs : s.Sound) : s.Step P s' := by
  have hl := h.leads hp (h.registered hp hs)
  refine ⟨⟨hl, hp.frame, hp.unfinished, h.grown.decls_prefix, ?_, h.inside,
      fun m _ _ => h.types m, fun m hm hnot p hmem => ?_, ?_⟩,
    h.sound hp hs hl, h.locals hl⟩
  · intro m hm hglobal hP
    refine h.others m (fun heq => ?_) hglobal
    subst heq
    rcases h.permitted with h | h | h
    · exact hglobal h
    · exact hP h
    · exact h hm
  · rcases h.grown.param hmem with hmem | ⟨rfl, hmem⟩
    · exact hmem
    · exact absurd (h.params p hmem hm) hnot
  · intro n hn htaken
    rcases h.grown.taken htaken with ht | ⟨d, hd, hn'⟩
    · exact .inl ht
    · exact h.taken d hd n hn' hn

end Change

/-! ## Declarations of a scope -/

/-- Where a declaration that is no class and no member is registered. -/
structure Registers (P : Permit) (s s' : Session) (ns : Namespace) (d : Decl) : Prop where
  scopes : ∀ m, s'.context.scope m = (s.context.push ns d).scope m
  kind : d.kind ≠ .cls
  member : ns.className? ≠ none → ∃ l, d = .lambda l
  field : ∀ f, d ≠ .field f
  welcome : s.Welcomes ns d
  opened : s'.Opened ns
  spent : ∀ n ∈ d.names, s'.Spent n
  permitted : ns = .global ∨ P.scopes ns ∨ ¬s.Opened ns
  taken : ∀ n ∈ d.names, s.Spent n → s.Taken n ∨ P.names n
  mutables : ∀ v, d = .var v → v.isFinal = false → ¬s.Spent v.name
  params : ∀ p, d = .param p → s.Opened ns → P.making ns
  top : ns = .global → s.Fits .global none noTargets d.places
  shapes : s.Shapes d
  here : ns = s.frame.ns → ns ≠ .global → (∀ p, d ≠ .param p) → (∀ l, d ≠ .lambda l) → s.DeclFits d

theorem declarations_of_push (h : ∀ m, s'.context.scope m = (s.context.push ns d).scope m) :
    s'.decls m = s.decls m ++ if m = ns then [d] else [] :=
  (congrArg Bindings.decls (h m)).trans Context.declarations_push

theorem classes_of_push (h : ∀ m, s'.context.scope m = (s.context.push ns d).scope m)
    (hkind : d.kind ≠ .cls) : s'.classes = s.classes := by
  show s'.context.classes .global false = s.context.classes .global false
  rw [Context.classes_global, Context.classes_global,
    show s'.context.declarations .global = _ from declarations_of_push h, List.filterMap_append]
  have hnone : Context.asClass? d = none := by
    cases d <;> first | rfl | exact absurd rfl hkind
  split
  · rw [List.filterMap_cons, hnone, List.filterMap_nil, List.append_nil]
  · rw [List.filterMap_nil, List.append_nil]

theorem scope_ne (hs : s.Sound) (hc : c ∈ s.classes) (h : ns.className? = none) : c.scope ≠ ns := by
  rintro rfl
  rw [ClassDecl.scope, Namespace.className?_classScope (hs.classes c hc).named] at h
  cases h

/-- To register a declaration is a move aside. -/
theorem Registers.course (h : Registers P s s' ns d) : s.Course s' := by
  refine .push h.kind (fun hclass => ?_) fun m => congrArg Bindings.decls (h.scopes m)
  obtain ⟨l, rfl⟩ := h.member hclass
  rfl

/-- **A declaration is registered.** -/
theorem Registers.step (h : Registers P s s' ns d) (hs : s.Sound) (hp : s.Passes s') : s.Step P s' := by
  have hdecls : ∀ m, s'.decls m = s.decls m ++ if m = ns then [d] else [] := fun _ =>
    declarations_of_push h.scopes
  have hclasses := classes_of_push h.scopes h.kind
  have hin : ∀ m, m.className? ≠ none → (m = ns → ∃ l, d = .lambda l) := fun m hm heq =>
    h.member (heq ▸ hm)
  suffices hchange : Change P s s' ns [d] id [] from hchange.step hp hs
  refine
    { grown := fun m => by rw [hdecls, List.map_append]; split <;> rfl
      one := le_refl _
      welcome := by simpa using h.welcome
      opened := h.opened
      spent := by simpa using h.spent
      permitted := h.permitted
      taken := by simpa using h.taken
      onlyFields := fun hm d' hd' hkind => ?onlyFields
      params := fun p hp => h.params p (List.mem_singleton.mp hp).symm
      mutables := fun v hv => h.mutables v (List.mem_singleton.mp hv).symm
      others := fun m hm _ => ?others
      types := fun m => by rw [h.scopes, Context.types_push]
      inside := fun m _ hm _ => ?inside
      classes := by rw [hclasses, List.map_id, List.append_nil]
      header := fun _ _ => ⟨rfl, rfl, rfl⟩
      finished := fun _ _ _ => rfl
      fields := fun _ _ _ hf => hf
      fieldNames := fun _ _ _ hf => .inl hf
      newFields := by simp
      newOne := Nat.zero_le _
      newTypes := by simp
      newSupers := by simp
      members := fun c hc => ?members
      fieldScopes := fun m f hf => ?fieldScopes
      classOk := fun _ c hc => .inl (hclasses ▸ hc)
      trees := fun hl d' hd' _ => ?trees
      shaped := fun m d' hd' _ => ?shaped
      locals := fun hl hglobal d' hd' => ?locals }
  case onlyFields =>
    obtain ⟨l, rfl⟩ := h.member hm
    rw [List.mem_singleton.mp hd'] at hkind
    cases hkind
  case others =>
    rw [h.scopes, Context.push, Context.scope_set, if_neg (Ne.symm hm)]
  case inside =>
    rw [hdecls]
    split
    · obtain ⟨l, rfl⟩ := hin m hm ‹_›
      simp [Decl.isMember]
    · rw [List.append_nil]
  case members =>
    rw [hclasses] at hc
    have hclass : c.scope.className? ≠ none := by
      rw [ClassDecl.scope, Namespace.className?_classScope (hs.classes c hc).named]
      simp
    have hold := hs.members c hc
    have hscope : s'.context.declarations c.scope =
        s.context.declarations c.scope ++ if c.scope = ns then [d] else [] := hdecls c.scope
    unfold Context.fieldsIn Context.funcsIn at hold ⊢
    rw [hscope, List.filterMap_append, List.filterMap_append, ← hold.1, ← hold.2]
    split
    · obtain ⟨l, rfl⟩ := hin _ hclass ‹_›
      simp
    · simp
  case fieldScopes =>
    rw [hdecls, List.mem_append] at hf
    rw [hclasses]
    rcases hf with hf | hf
    · exact hs.fields m f hf
    · split at hf
      · exact absurd (List.mem_singleton.mp hf).symm (h.field f)
      · cases hf
  case trees =>
    rw [hdecls, List.mem_append] at hd'
    rcases hd' with hd' | hd'
    · exact .inl hd'
    · split at hd'
      · rename_i hns
        rw [List.mem_singleton.mp hd']
        exact .inr ((h.top hns.symm).mono hl (.refl _))
      · cases hd'
  case shaped =>
    rw [hdecls, List.mem_append] at hd'
    refine hd'.imp_right fun hd' => ?_
    split at hd'
    · rw [List.mem_singleton.mp hd']
      exact h.shapes
    · cases hd'
  case locals =>
    obtain ⟨hmem, hlocal⟩ := List.mem_filter.mp hd'
    have hmem : d' ∈ s'.decls s.frame.ns := hp.frame ▸ hmem
    rw [hdecls, List.mem_append] at hmem
    rcases hmem with hmem | hmem
    · exact .inl (List.mem_filter.mpr ⟨hmem, hlocal⟩)
    · split at hmem
      · rename_i hns
        rw [List.mem_singleton] at hmem
        subst hmem
        refine .inr (DeclFits.mono (h.here hns.symm (hns ▸ hglobal.ne_global) ?_ ?_) hl hp.frame)
        · rintro p rfl
          cases hlocal
        · rintro l rfl
          cases hlocal
      · cases hmem

end Session

end ProgramGen

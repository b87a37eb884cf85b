import ProgramGen.Proofs.Generation.Change

/-!
# Classes and their members

A class is registered without members. A member enters the scope of its class and the list of the
class at once, and a function is completed in both places.
-/

namespace ProgramGen

namespace Session

variable {s s' : Session} {P : Permit} {ns m : Namespace} {d : Decl} {n : String} {c x : ClassDecl}

theorem scope_ne_global (c : ClassDecl) : c.scope ≠ .global :=
  Namespace.child_ne_global rfl

theorem scope_injective (h : c.scope = x.scope) : c.name = x.name := (Namespace.child_injective h).2

theorem Sound.className?_scope (hs : s.Sound) (hc : c ∈ s.classes) : c.scope.className? = some c.name :=
  Namespace.className?_classScope (hs.classes c hc).named

theorem Sound.ne_scope_of_isLocal (hs : s.Sound) (hns : ns.IsLocal) (hc : c ∈ s.classes) : ns ≠ c.scope := by
  rintro rfl
  have := hns.className?_eq
  rw [hs.className?_scope hc] at this
  cases this

/-- The classes with one of them changed. -/
theorem Sound.modifyFirst_classes (hs : s.Sound) {f : ClassDecl → ClassDecl} :
    Context.modifyFirst (·.name == n) f s.classes =
      s.classes.map fun x => if x.name = n then f x else x := by
  have hmap := Context.modifyFirst_eq_map (p := fun x : ClassDecl => x.name == n) (f := f)
    hs.distinctClasses fun x _ y _ hx hy => (beq_iff_eq.mp hx).trans (beq_iff_eq.mp hy).symm
  refine Eq.trans hmap (List.map_congr_left fun x _ => ?_)
  by_cases h : x.name = n <;> simp [h]

/-- The classes where one of them is changed. -/
theorem Sound.mem_changed (hs : s.Sound) (hc : c ∈ s.classes) {f : ClassDecl → ClassDecl}
    (hx : x ∈ s.classes.map fun y => if y.name = c.name then f y else y) :
    (x ∈ s.classes ∧ x.name ≠ c.name) ∨ x = f c := by
  obtain ⟨y, hy, rfl⟩ := List.mem_map.mp hx
  by_cases hname : y.name = c.name
  · rw [if_pos hname, hs.class_eq hy hc hname]
    exact .inr rfl
  · rw [if_neg hname]
    exact .inl ⟨hy, hname⟩

/-- A class is in step with its scope where neither of them changes. -/
theorem Sound.inStep_of_same (hs : s.Sound) (hx : x ∈ s.classes) (hsame : s'.decls x.scope = s.decls x.scope) :
    x.fields = s'.context.fieldsIn x.scope ∧ x.funcs = s'.context.funcsIn x.scope := by
  unfold Context.fieldsIn Context.funcsIn
  rw [show s'.context.declarations x.scope = s.context.declarations x.scope from hsame]
  exact hs.members x hx

/-! ## A new class -/

/-- Where a class is registered. -/
structure Declares (s s' : Session) (c : ClassDecl) : Prop where
  context : s'.context = s.context.push .global (.cls c)
  noFields : c.fields = []
  noFuncs : c.funcs = []
  empty : (s.decls c.scope).filter Decl.isMember = []
  free : ¬s.Taken c.name
  spent : s'.Spent c.name
  making : s.isUnfinished c.name
  named : startsUppercase c.name
  plain : c.ctor.IsPlain
  distinct : (c.typeParams.map (·.name)).Nodup
  finalKind : c.isFinal → c.kind = .regular
  steady : ∀ p ∈ c.typeParams, ∀ b ∈ p.bound, ∀ q, b.Occurs q → q ∈ c.typeParams ∧ q.variance = .invariant
  types : (s.context.scope c.scope).types = c.typeParams
  header : c.isGeneric ∨ c.isFinal = false → ∀ sup ∈ c.supers,
    sup.ty.Within c.typeParams IsInvariant ∧ ∃ d, s.IsOpen d ∧ sup.ty.IsOf d
  telescoped : Telescoped [] c.typeParams
  single : c.supers.length ≤ 1
  supers : ∀ sup ∈ c.supers, ∃ d ∈ s.classes, s.isUnfinished d.name = false ∧ sup.Suits c d
  superArgs : s.Fits .global none noTargets fun v => c.superArgs.map (v, ·)
  superRoots : ∀ e ∈ c.superArgs, s.ShapesRoot e

namespace Declares

variable (h : Declares s s' c)
include h

theorem classes : s'.classes = s.classes ++ [c] := by
  show s'.context.classes .global false = _
  rw [h.context, Context.classes_push_global]
  rfl

theorem decls_eq : s'.decls m = s.decls m ++ if m = .global then [.cls c] else [] := by
  unfold decls
  rw [h.context, Context.declarations_push]

theorem decls_of_ne (hm : m ≠ .global) : s'.decls m = s.decls m := by
  rw [h.decls_eq, if_neg hm, List.append_nil]

/-- Nothing but the class is declared. -/
theorem mem_decls (hd : d ∈ s'.decls m) (hkind : d.kind ≠ .cls) : d ∈ s.decls m := by
  rw [h.decls_eq, List.mem_append] at hd
  refine hd.resolve_right fun hd => ?_
  split at hd
  · rw [List.mem_singleton.mp hd] at hkind
    exact hkind rfl
  · cases hd

/-- The scope of the class is that of a class without members. -/
theorem inStep : c.fields = s'.context.fieldsIn c.scope ∧ c.funcs = s'.context.funcsIn c.scope := by
  unfold Context.fieldsIn Context.funcsIn
  rw [show s'.context.declarations c.scope = s.decls c.scope from h.decls_of_ne (scope_ne_global c),
    h.noFields, h.noFuncs]
  constructor <;>
  · refine (List.filterMap_eq_nil_iff.mpr fun d hd => ?_).symm
    cases hmember : d.isMember
    · cases d <;> first | rfl | cases hmember
    · have : d ∈ (s.decls c.scope).filter Decl.isMember := List.mem_filter.mpr ⟨hd, hmember⟩
      rw [h.empty] at this
      cases this

/-- A class that was just registered is as a class has to be: it has no members yet. -/
theorem classOk (hl : s.Leads s') (hp : s.Passes s') : s'.ClassOk c where
  named := h.named
  plain := h.plain
  distinct := h.distinct
  finalKind := h.finalKind
  steady := h.steady
  telescoped := h.telescoped
  keeps :=
    { single := h.single
      funcs := fun f hf => by rw [h.noFuncs] at hf; cases hf
      fields := fun f hf => by rw [h.noFields] at hf; cases hf
      implemented := fun _ f hf => by rw [h.noFuncs] at hf; cases hf
      extensible := fun f hf => by rw [h.noFuncs] at hf; cases hf }
  supers := supers_mono hl h.supers
  methods := fun f hf => by rw [h.noFuncs] at hf; cases hf
  complete := fun hf => by
    rw [hp.isUnfinished, h.making] at hf
    cases hf
  varies := fun hvaries =>
    ⟨{ header := fun sup hsup => (h.header hvaries sup hsup).1
       fields := fun f hf => by rw [h.noFields] at hf; cases hf
       funcs := fun f hf => by rw [h.noFuncs] at hf; cases hf },
      fun sup hsup => (h.header hvaries sup hsup).2.imp fun d hd => ⟨hd.1.mono hl, hd.2⟩⟩
  superArgs := h.superArgs.mono hl (.refl _)
  superRoots := fun e he => hl.shapesRoot (h.superRoots e he)
  bodies := fun f hf => by rw [h.noFuncs] at hf; cases hf

/-- **A class is registered.** -/
theorem step (hs : s.Sound) (hp : s.Passes s') (hP : s.Spent c.name → P.names c.name) : s.Step P s' := by
  have hglobal : s'.Opened .global := fun n hn => by
    obtain rfl := List.mem_singleton.mp hn
    exact hp.spent _ (hs.here _ (List.mem_of_mem_head? hs.rooted))
  suffices hchange : Change P s s' .global [.cls c] id [c] from hchange.step hp hs
  refine
    { grown := fun m => by rw [h.decls_eq, List.map_append]; split <;> rfl
      one := le_refl _
      welcome := fun d hd => ?welcome
      opened := hglobal
      spent := fun d hd n hn => ?spent
      permitted := .inl rfl
      taken := fun d hd n hn hspent => ?taken
      onlyFields := fun hm => absurd rfl hm
      params := fun p hp => by cases List.mem_singleton.mp hp
      mutables := fun v hv => by cases List.mem_singleton.mp hv
      others := fun m hm _ => by rw [h.context, Context.push, Context.scope_set, if_neg (Ne.symm hm)]
      types := fun m => by rw [h.context, Context.types_push]
      inside := fun m _ hm _ => by rw [h.decls_of_ne (by rintro rfl; exact hm rfl)]
      classes := by rw [h.classes, List.map_id]
      header := fun _ _ => ⟨rfl, rfl, rfl⟩
      finished := fun _ _ _ => rfl
      fields := fun _ _ _ hf => hf
      fieldNames := fun _ _ _ hf => .inl hf
      newFields := fun x hx => by rw [List.mem_singleton.mp hx, h.noFields]
      newOne := le_refl _
      newTypes := fun x hx => by rw [List.mem_singleton.mp hx, h.types]
      newSupers := fun x hx sup hsup => ?newSupers
      members := fun x hx => ?members
      fieldScopes := fun m f hf => ?fieldScopes
      classOk := fun hl x hx => ?classOk
      trees := fun hl d hd hkind => .inl (h.mem_decls hd hkind)
      shaped := fun m d hd hkind => .inl (h.mem_decls hd hkind)
      locals := fun _ hne d hd => .inl ?locals }
  case welcome =>
    rw [List.mem_singleton.mp hd]
    refine welcomes_of_fresh (fun n hn => ?_) trivial fun _ h => by cases h
    rw [List.mem_singleton.mp hn]
    exact h.free
  case spent =>
    rw [List.mem_singleton.mp hd] at hn
    rw [List.mem_singleton.mp hn]
    exact h.spent
  case taken =>
    rw [List.mem_singleton.mp hd] at hn
    obtain rfl := List.mem_singleton.mp hn
    exact .inr (hP hspent)
  case newSupers =>
    rw [List.mem_singleton.mp hx] at hsup
    obtain ⟨d, hd, -, hsuits⟩ := h.supers sup hsup
    exact ⟨d, hd, hsuits.name⟩
  case members =>
    rw [h.classes, List.mem_append] at hx
    rcases hx with hx | hx
    · exact hs.inStep_of_same hx (h.decls_of_ne (scope_ne_global x))
    · rw [List.mem_singleton.mp hx]
      exact h.inStep
  case fieldScopes =>
    obtain ⟨x, hx, hm⟩ := hs.fields m f (h.mem_decls hf fun heq => by cases heq)
    exact ⟨x, h.classes ▸ List.mem_append_left _ hx, hm⟩
  case classOk =>
    rw [h.classes, List.mem_append] at hx
    refine hx.imp_right fun hx => ?_
    rw [List.mem_singleton.mp hx]
    exact h.classOk hl hp
  case locals =>
    obtain ⟨hmem, hlocal⟩ := List.mem_filter.mp hd
    have hmem : d ∈ s'.decls s.frame.ns := hp.frame ▸ hmem
    rw [h.decls_of_ne hne.ne_global] at hmem
    exact List.mem_filter.mpr ⟨hmem, hlocal⟩

end Declares

/-! ## Members -/

/-- What has to hold of a function of a class. -/
structure MethodOk (s : Session) (c : ClassDecl) (f : FuncDecl) : Prop where
  method : f.IsMethod
  overrides : f.isOverride → s.context.OverridesFunc c f
  implemented : c.kind = .regular → f.isAbstract = false
  extensible : f.isAbstract → f.isFinal = false
  respects : c.isGeneric ∨ c.isFinal = false → f.Respects c.typeParams
  fits : s.Fits c.scope none noTargets (f.places ·)

/-- What has to hold of a field of a class. -/
structure FieldOk (s : Session) (c : ClassDecl) (f : FieldDecl) : Prop where
  overrides : f.isOverride → s.context.OverridesField c f
  respects : c.isGeneric ∨ c.isFinal = false → f.Respects c.typeParams

/-- A class in the making may get other members. -/
theorem Sound.classOk_members (hs : s.Sound) (hc : c ∈ s.classes) (hl : s.Leads s')
    (hmaking : s'.isUnfinished c.name) {fs : List FieldDecl} {gs : List FuncDecl}
    (hfields : ∀ f ∈ fs, f ∈ c.fields ∨ s.FieldOk c f)
    (hfuncs : ∀ f ∈ gs, f ∈ c.funcs ∨ s.MethodOk c f) :
    s'.ClassOk { c with fields := fs, funcs := gs } := by
  have hok := hs.classes c hc
  have hmethod : ∀ f ∈ gs, s.MethodOk c f := fun f hf => (hfuncs f hf).elim (fun hf =>
    ⟨hok.methods f hf, hok.keeps.funcs f hf, fun hkind => hok.keeps.implemented hkind f hf,
      hok.keeps.extensible f hf, fun hc => (hok.varies hc).1.funcs f hf, hok.bodies f hf⟩) id
  have hfield : ∀ f ∈ fs, s.FieldOk c f := fun f hf =>
    (hfields f hf).elim (fun hf => ⟨hok.keeps.fields f hf, fun hc => (hok.varies hc).1.fields f hf⟩) id
  exact
    { named := hok.named
      plain := hok.plain
      distinct := hok.distinct
      finalKind := hok.finalKind
      steady := hok.steady
      telescoped := hok.telescoped
      keeps :=
        { single := hok.keeps.single
          funcs := fun f hf h => overridesFunc_mono hs hl hok.supers ((hmethod f hf).overrides h)
          fields := fun f hf h => overridesField_mono hs hl hok.supers ((hfield f hf).overrides h)
          implemented := fun hkind f hf => (hmethod f hf).implemented hkind
          extensible := fun f hf => (hmethod f hf).extensible }
      supers := fun sup hsup => by
        obtain ⟨d, hd, hfinished, hsuits⟩ := supers_mono hl hok.supers sup hsup
        exact ⟨d, hd, hfinished, hsuits.name, hsuits.object, hsuits.open_, hsuits.interface,
          hsuits.args⟩
      methods := fun f hf => (hmethod f hf).method
      complete := fun hf => by
        rw [hmaking] at hf
        cases hf
      varies := fun hc' => ⟨⟨(hok.varies hc').1.header, fun f hf => (hfield f hf).respects hc',
        fun f hf => (hmethod f hf).respects hc'⟩, (hok.varies_mono hl hc').2⟩
      superArgs := hok.superArgs.mono hl (.refl _)
      superRoots := fun e he => hl.shapesRoot (hok.superRoots e he)
      bodies := fun f hf => (hmethod f hf).fits.mono hl (.refl _) }

/-- Where a member enters a class. -/
structure Attaches (P : Permit) (s s' : Session) (c : ClassDecl) (d : Decl) : Prop where
  context : s'.context = (s.context.modifyClass .global c.name (·.withMember d)).push c.scope d
  mem : c ∈ s.classes
  making : s.isUnfinished c.name
  member : d.isMember
  welcome : s.Welcomes c.scope d
  opened : s'.Opened c.scope
  spent : ∀ n ∈ d.names, s'.Spent n
  taken : ∀ n ∈ d.names, s.Spent n → s.Taken n ∨ P.names n
  scopes : P.scopes c.scope
  permitted : P.making c.scope
  field : ∀ f, d = .field f → (s.Spent f.name → s.HasField f.name f.isFinal) ∧ s.FieldOk c f
  func : ∀ f, d = .func f → s.MethodOk c f
  shapes : s.Shapes d

section Changed

variable {f : ClassDecl → ClassDecl}

/-- The scopes of a symbol table in which one class is changed. -/
theorem declarations_modifyClass {C : Context} :
    (C.modifyClass .global n f).declarations m = if m = .global then
      Context.modifyFirst (Bindings.isNamed .cls n) (fun | .cls c => .cls (f c) | d => d)
        (C.declarations .global) else C.declarations m :=
  Context.declarations_modify

/-- A change of the members of a class is none of its outline. -/
theorem outline_modifyClass {C : Context}
    (hf : ∀ c, Decl.outline (.cls (f c)) = Decl.outline (.cls c)) :
    ((C.modifyClass .global n f).declarations m).map Decl.outline =
      (C.declarations m).map Decl.outline := by
  rw [declarations_modifyClass]
  split
  · rw [‹m = .global›]
    refine Context.map_modifyFirst fun d _ _ => ?_
    cases d <;> first | rfl | exact hf _
  · rfl

/-- Only the class itself changes at the top level. -/
theorem mem_declarations_modifyClass {C : Context} (hd : d ∈ (C.modifyClass .global n f).declarations m)
    (hkind : d.kind ≠ .cls) : d ∈ C.declarations m := by
  rw [declarations_modifyClass] at hd
  split at hd
  · rename_i hm
    rcases Context.mem_modifyFirst hd with hd | ⟨d', -, hnamed, rfl⟩
    · exact hm ▸ hd
    · simp only [Bindings.isNamed, Bool.and_eq_true, beq_iff_eq] at hnamed
      cases d' with
      | cls c => exact absurd rfl hkind
      | _ => cases hnamed.1
  · exact hd

end Changed

theorem scope_withMember (x : ClassDecl) : (x.withMember d).scope = x.scope := by
  cases d <;> rfl

theorem outline_withMember (x : ClassDecl) :
    Decl.outline (.cls (x.withMember d)) = Decl.outline (.cls x) := by
  cases d <;> rfl

namespace Attaches

variable (h : Attaches P s s' c d)
include h

theorem decls_eq : s'.decls m = (s.context.modifyClass .global c.name (·.withMember d)).declarations m ++
    if m = c.scope then [d] else [] := by
  unfold decls
  rw [h.context, Context.declarations_push]

theorem kind_ne : d.kind ≠ .cls := by
  intro hkind
  have := h.member
  cases d <;> simp_all [Decl.kind, Decl.isMember]

theorem classes_eq (hs : s.Sound) :
    s'.classes = s.classes.map fun x => if x.name = c.name then x.withMember d else x := by
  rw [← hs.modifyFirst_classes, show s.classes = s.context.classes .global false from rfl,
    ← Context.classes_modifyClass]
  exact classes_of_push (s := s.withContext (s.context.modifyClass .global c.name (·.withMember d)))
    (fun m => by rw [h.context]; rfl) h.kind_ne

theorem scope_eq (hm : m ≠ .global) (hmc : m ≠ c.scope) : s'.context.scope m = s.context.scope m := by
  rw [h.context, Context.push, Context.scope_set, if_neg (Ne.symm hmc), Context.modifyClass,
    Context.scope_modify_of_ne hm]

/-- Nothing but the member is declared. -/
theorem mem_decls {d' : Decl} (hd' : d' ∈ s'.decls m) (hkind : d'.kind ≠ .cls) :
    d' ∈ s.decls m ∨ (m = c.scope ∧ d' = d) := by
  rw [h.decls_eq, List.mem_append] at hd'
  rcases hd' with hd' | hd'
  · exact .inl (mem_declarations_modifyClass hd' hkind)
  · split at hd'
    · exact .inr ⟨‹_›, List.mem_singleton.mp hd'⟩
    · cases hd'

theorem decls_scope : s'.decls c.scope = s.decls c.scope ++ [d] := by
  rw [h.decls_eq, if_pos rfl, declarations_modifyClass, if_neg (scope_ne_global c)]

/-- The class has the member that its scope has. -/
theorem inStep (hs : s.Sound) : (c.withMember d).fields = s'.context.fieldsIn (c.withMember d).scope ∧
    (c.withMember d).funcs = s'.context.funcsIn (c.withMember d).scope := by
  obtain ⟨hfields, hfuncs⟩ := hs.members c h.mem
  unfold Context.fieldsIn at hfields ⊢
  unfold Context.funcsIn at hfuncs ⊢
  rw [scope_withMember, show s'.context.declarations c.scope = s.context.declarations c.scope ++ [d] from
    h.decls_scope, List.filterMap_append, List.filterMap_append, ← hfields, ← hfuncs]
  cases d <;> simp [ClassDecl.withMember]

/-- The class goes on to be as a class has to be. -/
theorem classOk (hs : s.Sound) (hp : s.Passes s') (hl : s.Leads s') : s'.ClassOk (c.withMember d) := by
  have hmaking : s'.isUnfinished c.name := hp.isUnfinished.trans h.making
  cases d with
  | field f =>
    refine hs.classOk_members h.mem hl hmaking (fun f' hf' => ?_) fun g hg => .inl hg
    refine (List.mem_append.mp hf').imp_right fun hf' => ?_
    rw [List.mem_singleton.mp hf']
    exact (h.field f rfl).2
  | func f =>
    refine hs.classOk_members h.mem hl hmaking (fun f' hf' => .inl hf') fun g hg => ?_
    refine (List.mem_append.mp hg).imp_right fun hg => ?_
    rw [List.mem_singleton.mp hg]
    exact h.func f rfl
  | _ => exact absurd h.member (by simp [Decl.isMember])

/-- **A member enters its class.** -/
theorem step (hs : s.Sound) (hp : s.Passes s') : s.Step P s' := by
  have hclasses := h.classes_eq hs
  have hin : ∀ x ∈ s'.classes, (x ∈ s.classes ∧ x.name ≠ c.name) ∨ x = c.withMember d := fun x hx =>
    hs.mem_changed h.mem (hclasses ▸ hx)
  suffices hchange : Change P s s' c.scope [d]
      (fun x => if x.name = c.name then x.withMember d else x) [] from hchange.step hp hs
  refine
    { grown := fun m => ?grown
      one := le_refl _
      welcome := by simpa using h.welcome
      opened := h.opened
      spent := by simpa using h.spent
      permitted := .inr (.inl h.scopes)
      taken := by simpa using h.taken
      onlyFields := fun _ d' hd' hkind => ?onlyFields
      params := fun _ _ _ => h.permitted
      mutables := fun v hv => ?mutables
      others := fun m hm hglobal => h.scope_eq hglobal hm
      types := fun m => by rw [h.context, Context.types_push, Context.modifyClass, Context.types_modify]
      inside := fun m _ hm hP => ?inside
      classes := by rw [hclasses, List.append_nil]
      header := fun x _ => ?header
      finished := fun x hx hf => if_neg fun hname => ?finished
      fields := fun x _ f hf => ?fields
      fieldNames := fun x hx f hf => ?fieldNames
      newFields := by simp
      newOne := Nat.zero_le _
      newTypes := by simp
      newSupers := by simp
      members := fun x hx => ?members
      fieldScopes := fun m f hf => ?fieldScopes
      classOk := fun hl x hx => ?classOk
      trees := fun _ d' hd' hkind => ?trees
      shaped := fun m d' hd' hkind => ?shaped
      locals := fun _ hns d' hd' => ?locals }
  case grown =>
    rw [h.decls_eq, List.map_append, outline_modifyClass outline_withMember]
    split <;> rfl
  case onlyFields =>
    have hmember := h.member
    rw [← List.mem_singleton.mp hd'] at hmember
    cases d' with
    | field f => exact ⟨f, rfl⟩
    | func => cases hkind
    | _ => cases hmember
  case mutables =>
    have := h.member
    rw [← List.mem_singleton.mp hv] at this
    cases this
  case inside =>
    have hmc : m ≠ c.scope := fun heq => hP (heq ▸ h.permitted)
    have hmg : m ≠ .global := by rintro rfl; exact hm rfl
    unfold decls Context.declarations
    rw [h.scope_eq hmg hmc]
  case header =>
    split
    · cases d <;> exact ⟨rfl, rfl, rfl⟩
    · exact ⟨rfl, rfl, rfl⟩
  case finished =>
    rw [hname, h.making] at hf
    cases hf
  case fields =>
    split
    · cases d <;> first | exact hf | exact List.mem_append_left _ hf
    · exact hf
  case fieldNames =>
    split at hf
    · cases d with
      | field f' =>
        refine (List.mem_append.mp hf).imp_right fun hf => ?_
        rw [List.mem_singleton.mp hf]
        exact (h.field f' rfl).1
      | _ => exact .inl hf
    · exact .inl hf
  case members =>
    rcases hin x hx with ⟨hx, hname⟩ | rfl
    · exact hs.inStep_of_same hx <| congrArg Bindings.decls <|
        h.scope_eq (scope_ne_global x) fun heq => hname (scope_injective heq)
    · exact h.inStep hs
  case fieldScopes =>
    rcases h.mem_decls hf (fun heq => by cases heq) with hf | ⟨rfl, -⟩
    · obtain ⟨x, hx, rfl⟩ := hs.fields m f hf
      refine ⟨if x.name = c.name then x.withMember d else x, ?_, ?_⟩
      · rw [hclasses]
        exact List.mem_map.mpr ⟨x, hx, rfl⟩
      · split
        · exact (scope_withMember x).symm
        · rfl
    · refine ⟨c.withMember d, ?_, (scope_withMember c).symm⟩
      rw [hclasses]
      exact List.mem_map.mpr ⟨c, h.mem, if_pos rfl⟩
  case classOk =>
    rcases hin x hx with ⟨hx, -⟩ | rfl
    · exact .inl hx
    · exact .inr (h.classOk hs hp hl)
  case trees =>
    rcases h.mem_decls hd' hkind with hd' | ⟨heq, -⟩
    · exact .inl hd'
    · exact absurd heq.symm (scope_ne_global c)
  case shaped =>
    refine (h.mem_decls hd' hkind).imp_right ?_
    rintro ⟨-, rfl⟩
    exact h.shapes
  case locals =>
    obtain ⟨hd', hlocal⟩ := List.mem_filter.mp hd'
    have hd' : d' ∈ s'.decls s.frame.ns := hp.frame ▸ hd'
    rw [h.decls_eq, if_neg (hs.ne_scope_of_isLocal hns h.mem), List.append_nil, declarations_modifyClass,
      if_neg hns.ne_global] at hd'
    exact .inl (List.mem_filter.mpr ⟨hd', hlocal⟩)

end Attaches

end Session

end ProgramGen

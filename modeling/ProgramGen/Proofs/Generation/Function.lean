import ProgramGen.Proofs.Generation.Signature

/-!
# Functions

A function is registered under names that nothing has, or that functions above its class have in the
same places. Its parameters enter its scope, its body is made there and completes it. Seen from the
scope around, a function is one declaration more.
-/

namespace ProgramGen

open Session

variable {s s' s₁ s₂ s₃ : Session} {t u : Ty} {e : Engine} {P : Permit} {n : String} {c : ClassDecl}
variable {f g : FuncDecl} {p : ParamDecl} {ps : List ParamDecl} {parent ns : Namespace} {d : Decl}
variable {root : Option Namespace} {hasBody : Bool}

namespace Session

/-! ## Names -/

/-- All declarations of the name are parameters. -/
def IsParamName (s : Session) (n : String) : Prop := ∀ m, ∀ d ∈ s.decls m, d.name = n → ∃ q, d = .param q

/-- The names of a new function: nothing has them, or functions have them in the same places. -/
structure FuncNames (P : Permit) (s : Session) (parent : Namespace) (f : FuncDecl) : Prop where
  spent : ∀ n ∈ (Decl.func f).names, s.Spent n
  free : ∀ g, .func g ∈ s.decls parent → g.name ≠ f.name
  name : (¬s.Taken f.name ∧ P.names f.name) ∨ ∃ m g, .func g ∈ s.decls m ∧ g.name = f.name
  params : ∀ p ∈ f.params, (¬s.Taken p.name ∧ P.names p.name) ∨
    ∃ m g, .func g ∈ s.decls m ∧ ∃ q ∈ g.params, q.name = p.name
  distinct : (f.params.map (·.name)).Nodup
  ne : ∀ p ∈ f.params, p.name ≠ f.name

theorem isParamName_of_not_taken (h : ¬s.Taken n) : s.IsParamName n := fun m d hd hname =>
  absurd ⟨m, d, hd, hname ▸ Sound.name_mem_names d⟩ h

theorem Registered.isParamName (hs : s.Registered) (hf : .func f ∈ s.decls ns) (hp : p ∈ f.params) :
    s.IsParamName p.name :=
  hs.params ns f hf p hp

theorem Sound.not_isMutable_param (hs : s.Sound) (h : s.IsParamName n) : ¬s.IsMutable n := by
  rintro (⟨m, v, hv, hname, -⟩ | ⟨c, hc, f, hf, hname, -⟩)
  · obtain ⟨q, hq⟩ := h m _ hv hname
    cases hq
  · obtain ⟨q, hq⟩ := h _ _ (hs.field_mem hc hf) hname
    cases hq

namespace FuncNames

variable (h : FuncNames P s parent f)
include h

theorem isParamName (hs : s.Sound) (hp : p ∈ f.params) : s.IsParamName p.name := by
  rcases h.params p hp with ⟨hfree, -⟩ | ⟨m, g, hg, q, hq, hname⟩
  · exact isParamName_of_not_taken hfree
  · exact hname ▸ hs.isParamName hg hq

theorem welcomes (hs : s.Sound) (htypes : (Decl.func f).TypesPlain) : s.Welcomes parent (.func f) where
  keys d hd hkind := by
    cases d with
    | func g => exact h.free g hd
    | _ => cases hkind
  unique m d hd hname := by
    rcases h.name with ⟨hfree, -⟩ | ⟨m', g, hg, hgname⟩
    · have hmem := Sound.name_mem_names d
      rw [hname] at hmem
      exact absurd ⟨m, d, hd, hmem⟩ hfree
    · rcases hs.eq_or_agrees hg hd (hgname.trans hname.symm) with ⟨-, rfl⟩ | hagrees
      · trivial
      · cases d <;> trivial
  params m g hg q hq hname := by
    exfalso
    rcases h.name with ⟨hfree, -⟩ | ⟨m', g', hg', hgname⟩
    · exact hfree ⟨m, _, hg, List.mem_cons_of_mem _ (List.mem_map.mpr ⟨q, hq, hname⟩)⟩
    · obtain ⟨r, hr⟩ := hs.isParamName hg hq m' _ hg' (hgname.trans hname.symm)
      cases hr
  ownParams g hg p hp := by
    cases hg
    exact ⟨h.ne p hp, h.isParamName hs hp⟩
  types := htypes

theorem taken (hn : n ∈ (Decl.func f).names) : s.Taken n ∨ P.names n := by
  have hfunc : ∀ m g, .func g ∈ s.decls m → n ∈ (Decl.func g).names → s.Taken n := fun m g hg hn =>
    ⟨m, _, hg, hn⟩
  rcases List.mem_cons.mp hn with rfl | hn
  · exact h.name.elim (.inr ·.2) fun ⟨m, g, hg, hname⟩ => .inl (hfunc m g hg (hname ▸ List.mem_cons_self))
  · obtain ⟨p, hp, rfl⟩ := List.mem_map.mp hn
    exact (h.params p hp).elim (.inr ·.2) fun ⟨m, g, hg, q, hq, hname⟩ =>
      .inl (hfunc m g hg (List.mem_cons_of_mem _ (List.mem_map.mpr ⟨q, hq, hname⟩)))

end FuncNames

/-! ## What stands in a function -/

theorem InFunc.isInner (h : s.InFunc parent n) : IsInner parent n :=
  ⟨h.rooted, (em (parent = .global)).symm.imp_right h.named⟩

/-- **What stands in a function fits around it.** -/
theorem Sound.fits_func (hs : s.Sound) (h : s.InFunc parent f.name) (hkind : f.kind = .inside parent)
    (hdefaults : ∀ p ∈ f.params, ∀ a ∈ p.defaultValue,
      s.Fits parent s.frame.captureRoot noTargets fun v => [(v, a)])
    (hbody : ∀ a ∈ f.body, s.FitsHere noLocals a)
    (hparams : ∀ p ∈ f.params, s.Spent p.name ∧ s.IsParamName p.name)
    (hown : s.ParamsAre (parent.child f.name) (parameters f.params))
    (hroot : ¬parent.IsLocal → root = none) : s.Fits parent root noTargets (f.places ·) := by
  have hw : ∀ y ∈ parameters f.params, y.2 = .constant ∧ s.Spent y.1 ∧ ¬s.IsMutable y.1 := by
    intro y hy
    obtain ⟨p, hp, rfl⟩ := List.mem_map.mp hy
    exact ⟨rfl, (hparams p hp).1, hs.not_isMutable_param (hparams p hp).2⟩
  have hnested := Namespace.isLocal_iff_nested h.rooted
  -- The default values stand around the function and the body inside it.
  refine Fits.append ?_ ?_
  · refine Fits.exprs fun a ha => ?_
    obtain ⟨p, hp, ha⟩ := List.mem_filterMap.mp ha
    have hfits := hdefaults p hp a ha
    rw [h.root] at hfits
    split at hfits
    · exact hfits.of_before_closure
    · rename_i hnot
      rw [hroot fun hlocal => hnot (hnested.mpr hlocal)]
      exact hfits
  · cases hf : f.body with
    | none => exact .nil
    | some a =>
      have hfits := hbody a hf
      unfold FitsHere at hfits
      rw [h.ns, h.root] at hfits
      rw [hkind]
      split at hfits
      · rename_i hlocal
        simp only [hlocal, if_true]
        exact hfits.of_closure h.isInner hw hown
      · rename_i hnot
        simp only [hnot, if_false]
        rw [hroot fun hlocal => hnot (hnested.mpr hlocal)]
        exact hfits.of_child_constants h.isInner hw hown

theorem shapes_func (htypes : (Decl.func f).TypesPlain) (hdefaults : ∀ p ∈ f.params, ∀ a ∈ p.defaultValue, s.ShapesRoot a)
    (hbody : ∀ a ∈ f.body, a.depth ≤ rootDepth s.maxDepth ∧
      (s.language = .java → ∀ r ∈ a.results f.ret, r.isValue)) : s.Shapes (.func f) where
  depth a ha := by
    obtain ⟨x, hx, rfl⟩ := List.mem_map.mp ha
    rcases List.mem_append.mp hx with hx | hx
    · obtain ⟨a, ha', rfl⟩ := List.mem_map.mp hx
      obtain ⟨p, hp, ha⟩ := List.mem_filterMap.mp ha'
      exact (hdefaults p hp a ha).depth
    · obtain ⟨a, ha, rfl⟩ := List.mem_map.mp hx
      exact (hbody a (Option.mem_toList.mp ‹_›)).1
  values hl a ha := by
    rcases List.mem_append.mp ha with ha | ha
    · obtain ⟨p, hp, ha⟩ := List.mem_filterMap.mp ha
      exact (hdefaults p hp a ha).value hl
    · obtain ⟨b, hb, ha⟩ := List.mem_flatMap.mp ha
      exact (hbody b (Option.mem_toList.mp hb)).2 hl a ha
  types := htypes.formed nofun

theorem shapes_param (hty : p.ty.Plain) (hdefault : ∀ a ∈ p.defaultValue, s.ShapesRoot a) : s.Shapes (.param p) where
  depth a ha := by
    obtain ⟨x, hx, rfl⟩ := List.mem_map.mp ha
    obtain ⟨a, ha', rfl⟩ := List.mem_map.mp hx
    obtain ⟨q, hq, ha'⟩ := List.mem_filterMap.mp ha'
    rw [List.mem_singleton.mp hq] at ha'
    exact (hdefault a ha').depth
  values hl a ha := by
    obtain ⟨q, hq, ha⟩ := List.mem_filterMap.mp ha
    rw [List.mem_singleton.mp hq] at ha
    exact (hdefault a ha).value hl
  types := Decl.TypesPlain.formed (d := .param p) hty nofun

/-! ## Registration -/

/-- Whose function a new one is: that of a scope, or of a class in the making. -/
inductive Owner (P : Permit) (s : Session) (f : FuncDecl) : Namespace → Prop where
  | scope {m : Namespace} (hclass : m.className? = none) (hP : P.Covers m) : Owner P s f m
  | cls {c : ClassDecl} (hc : c ∈ s.classes) (hmaking : s.isUnfinished c.name) (hscopes : P.scopes c.scope)
      (hP : P.making c.scope) (hsig : s.MethodSig c f) (himplemented : c.kind = .regular → f.isAbstract = false)
      (hextensible : f.isAbstract → f.isFinal = false) : Owner P s f c.scope

/-- All that has to be known of a function that is to be registered. -/
structure FuncReady (P : Permit) (s : Session) (parent : Namespace) (hasBody : Bool) (f : FuncDecl) :
    Prop where
  kind : f.kind = .inside parent
  names : FuncNames P s parent f
  types : (Decl.func f).TypesPlain
  defaults : ∀ p ∈ f.params, ∀ a ∈ p.defaultValue,
    s.Fits parent s.frame.captureRoot noTargets (fun v => [(v, a)]) ∧ s.ShapesRoot a
  body : f.body = if hasBody then some (.unresolved s.language.voidType) else none
  owner : Owner P s f parent

theorem MethodSig.complete {b : Expr} (h : s.MethodSig c f) : s.MethodSig c { f with body := some b } :=
  ⟨⟨h.method.marked, h.method.distinct, h.method.used, h.method.params⟩, h.overrides, fun hc =>
    ⟨(h.respects hc).params, (h.respects hc).ret, (h.respects hc).bounds⟩⟩

theorem MethodSig.ok (h : s.MethodSig c f) (himplemented : c.kind = .regular → f.isAbstract = false)
    (hextensible : f.isAbstract → f.isFinal = false) (hfits : s.Fits c.scope none noTargets (f.places ·)) :
    s.MethodOk c f :=
  ⟨h.method, h.overrides, himplemented, hextensible, h.respects, hfits⟩

theorem FuncReady.fits (hf : FuncReady P s parent hasBody f) (hs : s.Sound) (h : s.InFunc parent f.name)
    (hown : s.ParamsAre (parent.child f.name) (parameters f.params)) (hroot : ¬parent.IsLocal → root = none) :
    s.Fits parent root noTargets (f.places ·) := by
  refine hs.fits_func h hf.kind (fun p hp a ha => (hf.defaults p hp a ha).1) (fun a ha => ?_)
    (fun p hp => ⟨hf.names.spent _ (List.mem_cons_of_mem _ (List.mem_map_of_mem hp)), hf.names.isParamName hs hp⟩)
    hown hroot
  rw [hf.body] at ha
  split at ha
  · cases ha
    exact (Stands.unresolved s.language.requested_voidType).fits
  · cases ha

theorem FuncReady.shapes (hf : FuncReady P s parent hasBody f) : s.Shapes (.func f) := by
  refine shapes_func hf.types (fun p hp a ha => (hf.defaults p hp a ha).2) fun a ha => ?_
  rw [hf.body] at ha
  split at ha
  · cases ha
    exact ⟨Nat.le_add_left 1 _, fun _ r hr => Expr.results_of_isValue rfl r hr ▸ rfl⟩
  · cases ha

end Session

namespace Gen

/-- **A function is registered**, in its class too if it is a method. -/
theorem attachFunc_ensures (hs : s.Sound) (h : s.InFunc parent f.name) (hf : FuncReady P s parent hasBody f)
    (hown : s.ParamsAre (parent.child f.name) (parameters f.params)) :
    (attach parent (.func f)).Ensures (Step P) s fun _ s' =>
      (∀ m, m ≠ .global ∨ parent = .global → s'.decls m = s.decls m ++ if m = parent then [.func f] else []) ∧
      ∀ c ∈ s.classes, parent = c.scope → c.withMember (.func f) ∈ s'.classes := by
  have hwelcome := hf.names.welcomes hs hf.types
  -- A function of a scope is pushed there; a method goes into the record of its class as well.
  cases hf.owner with
  | scope hclass hP =>
    rw [attach_eq hclass]
    have hr : Registers P s (s.withContext (s.context.push parent (.func f))) parent (.func f) :=
      { scopes := fun _ => rfl
        kind := nofun
        member := fun hm => absurd hclass hm
        field := nofun
        welcome := hwelcome
        opened := fun n hn => spent_withContext.mpr (h.opened n hn)
        spent := fun n hn => spent_withContext.mpr (hf.names.spent n hn)
        permitted := hP.imp_right .inl
        taken := fun n hn _ => hf.names.taken hn
        mutables := nofun
        params := nofun
        top := fun hglobal => hglobal ▸ hf.fits hs h hown fun _ => rfl
        shapes := hf.shapes
        here := fun hns => absurd hns h.ne_parent }
    refine (addDecl_step hs hr).mono fun _ s' _ heq => ⟨fun m _ => ?_, fun c hc hscope => ?_⟩
    · rw [heq]
      exact Context.declarations_push
    · rw [hscope, hs.className?_scope hc] at hclass
      cases hclass
  | @cls c hc hmaking hscopes hP hsig himplemented hextensible =>
    have hfits : s.Fits c.scope none noTargets (f.places ·) := hf.fits hs h hown fun _ => rfl
    have hr : Attaches P s (s.withContext (s.context.attached c (.func f))) c (.func f) :=
      { context := rfl
        mem := hc
        making := hmaking
        member := rfl
        welcome := hwelcome
        opened := fun n hn => spent_withContext.mpr (h.opened n hn)
        spent := fun n hn => spent_withContext.mpr (hf.names.spent n hn)
        taken := fun n hn _ => hf.names.taken hn
        scopes := hscopes
        permitted := hP
        field := nofun
        func := fun g hg => by
          cases hg
          exact hsig.ok himplemented hextensible hfits
        shapes := hf.shapes }
    refine (attach_step hs (.refl hs) rfl hr).mono fun _ s' _ heq => ⟨fun m hm => ?_, fun x hx hscope => ?_⟩
    · have hm : m ≠ .global := hm.resolve_right (scope_ne_global c)
      rw [heq, hr.decls_eq, declarations_modifyClass, if_neg hm]
    · obtain rfl : c = x := hs.class_eq hc hx (scope_injective hscope)
      rw [heq, hr.classes_eq hs]
      exact List.mem_map.mpr ⟨c, hc, if_pos rfl⟩

/-- The parameters of a registered function enter its scope. -/
theorem addParams_ensures (hs : s.Sound) (hfunc : .func f ∈ s.decls ns) {m : Namespace} (hopened : s.Opened m)
    (hm : m.IsLocal) (hP : P.scopes m) (hmaking : P.making m) (hne : ns ≠ m) (hps : ∀ p ∈ ps, p ∈ f.params)
    (hdistinct : (ps.map (·.name)).Nodup) (hfree : ∀ d ∈ s.decls m, ∀ p ∈ ps, d.name ≠ p.name)
    (hshapes : ∀ p ∈ ps, ∀ a ∈ p.defaultValue, s.ShapesRoot a) :
    (ps.forM fun p => updateContext (·.addVar m (.param p))).Ensures (Step P) s fun _ s' =>
      ∀ x, s'.decls x = s.decls x ++ if x = m then ps.map .param else [] := by
  -- Each parameter is bound in a scope that holds those before it, and its name is none of theirs.
  induction ps generalizing s with
  | nil => exact .pure (.refl hs) fun x => by simp
  | cons p ps ih =>
    obtain ⟨hp, hps⟩ := List.forall_mem_cons.mp hps
    obtain ⟨hpname, hdistinct⟩ := List.nodup_cons.mp hdistinct
    obtain ⟨hpshape, hshapes⟩ := List.forall_mem_cons.mp hshapes
    have hnames : p.name ∈ (Decl.func f).names := List.mem_cons_of_mem _ (List.mem_map_of_mem hp)
    have hty : p.ty.Plain := (hs.types ns _ hfunc).1 p hp
    have hr : Registers P s (s.withContext (s.context.push m (.param p))) m (.param p) :=
      registers_param (fun _ => rfl) hopened hm.className?_eq hm.ne_global hP hmaking hty
        (hs.spent hfunc hnames) (fun d hd => hfree d hd p List.mem_cons_self) (hs.isParamName hfunc hp)
        (.inl ⟨ns, _, hfunc, hnames⟩) (shapes_param hty hpshape)
    have hadd : (updateContext (·.addVar m (.param p))).Ensures (Step P) s fun _ s₁ =>
        s₁ = s.withContext (s.context.push m (.param p)) := addVar_step hs (.refl hs) rfl rfl hr
    refine hadd.bind fun _ s₁ h₁ heq => ?_
    have hdecls : ∀ x, s₁.decls x = s.decls x ++ if x = m then [.param p] else [] := fun x => by
      rw [heq]
      exact Context.declarations_push
    have hfunc₁ : .func f ∈ s₁.decls ns := by
      rw [hdecls, if_neg hne, List.append_nil]
      exact hfunc
    refine (ih h₁.sound hfunc₁ (opened_mono h₁.toLeads hopened) hps hdistinct (fun d hd q hq => ?_)
      fun q hq a ha => h₁.toLeads.shapesRoot (hshapes q hq a ha)).mono fun _ s₂ _ hdecls₂ x => ?_
    · rw [hdecls, if_pos rfl, List.mem_append] at hd
      rcases hd with hd | hd
      · exact hfree d hd q (List.mem_cons_of_mem _ hq)
      · rw [List.mem_singleton.mp hd]
        exact fun hname => hpname (List.mem_map.mpr ⟨q, hq, hname.symm⟩)
    · rw [hdecls₂, hdecls]
      split <;> simp

end Gen

/-! ## Bodies -/

namespace Session

/-- No changing variable around a function is declared in scopes that it can assign. -/
theorem InFunc.not_outerTargets (h : s.InFunc parent n) (hs' : s'.Sound) (hns : s'.frame.ns = s.frame.ns)
    (hroot : s'.frame.captureRoot = s.frame.captureRoot) {x : String} : ¬s'.OuterTargets x := by
  rintro ⟨m, hm, hlocal, hlineage, hne, hwithin⟩
  obtain ⟨hin, hnonempty⟩ := Namespace.mem_lineage.mp hlineage
  rw [hns, h.ns] at hin hne
  have hin := Namespace.isWithin_of_child hin hne
  -- A nested function captures up to its own scope, so a local scope around it is out of reach.
  by_cases hparent : parent.IsLocal
  · have hroot : s'.frame.captureRoot = some (parent.child n) := by
      rw [hroot, h.root, if_pos ((Namespace.isLocal_iff_nested h.rooted).mpr hparent)]
    have := hwithin _ (Option.mem_def.mpr hroot)
    rw [Namespace.not_isWithin_child hin] at this
    cases this
  obtain ⟨rest, hprefix⟩ := Namespace.isWithin_iff.mp hin
  have hlong : 2 ≤ m.segments.length := by
    have := List.length_pos_iff.mpr hnonempty
    simp only [Namespace.isGlobal, Namespace.size, beq_eq_false_iff_ne] at hlocal
    omega
  have hlength := congrArg List.length hprefix
  rw [List.length_append] at hlength
  by_cases hglobal : parent = .global
  · rw [hglobal] at hlength
    simp only [Namespace.global, List.length_singleton] at hlength
    omega
  -- The only scope left is the class around a method, and a class scope holds no variables.
  · have hclass : parent.className? ≠ none := fun hc => hparent ⟨hglobal, hc⟩
    obtain ⟨x, hx⟩ := Option.ne_none_iff_exists'.mp hclass
    obtain ⟨-, a, hseg⟩ := Namespace.className?_eq_some hx
    rw [hseg] at hlength
    simp only [List.length_cons, List.length_nil] at hlength
    obtain rfl : m = parent := by
      have hnil : rest = [] := List.eq_nil_of_length_eq_zero (by omega)
      rw [hnil, List.append_nil] at hprefix
      cases m
      cases parent
      exact congrArg _ hprefix
    obtain ⟨v, hv, -⟩ := hm
    obtain ⟨f, hf⟩ := hs'.classScopes m hclass _ hv rfl
    cases hf

/-- A class to which nothing is added stays what it is. -/
theorem Sound.class_mem (hs : s.Sound) (hs' : s'.Sound) (h : s.Extends P s') (hc : c ∈ s.classes)
    (hnot : ¬P.making c.scope) : c ∈ s'.classes := by
  have hopened : s.Opened c.scope := fun n hn => by
    rcases List.mem_append.mp hn with hn | hn
    · obtain rfl := List.mem_singleton.mp hn
      exact hs.here _ (List.mem_of_mem_head? hs.rooted)
    · rw [List.mem_singleton.mp hn]
      exact hs.class_mem_taken hc
  have hmem := (h.decls .global).subset (List.mem_map_of_mem (Context.mem_classes_global.mp hc))
  obtain ⟨d, hd, heq⟩ := List.mem_map.mp hmem
  cases d with
  | cls c' =>
    have hc' : c' ∈ s'.classes := Context.mem_classes_global.mpr hd
    have hscope : c'.scope = c.scope := congrArg Namespace.global.child (Decl.name_eq_of_outline heq)
    have hinside := h.inside c.scope hopened (by rw [hs.className?_scope hc]; simp) hnot
    have hfields : c'.fields = c.fields := by
      rw [(hs'.members c' hc').1, (hs.members c hc).1, hscope]
      exact (Context.members_eq_of_filter hinside).1
    have hfuncs : c'.funcs = c.funcs := by
      rw [(hs'.members c' hc').2, (hs.members c hc).2, hscope]
      exact (Context.members_eq_of_filter hinside).2
    obtain ⟨n, k, ts, ss, fs, gs, b⟩ := c
    obtain ⟨n', k', ts', ss', fs', gs', b'⟩ := c'
    cases hfields
    cases hfuncs
    cases heq
    exact hc'
  | _ => cases heq

end Session

namespace Gen

/-- **The body of a function.** -/
theorem funcBody_ensures (hs : s.Sound) (h : s.InFunc parent n) (he : s.Served e 0) (ht : t.Requested)
    (hlocals : ∀ d ∈ s.decls (parent.child n), d.isLocal = false) :
    (inFrame (fun f => { f with inFuncBody := true }) (e.body t)).Ensures (Advances (.within (parent.child n))) s
      fun a s' => s'.FitsHere noLocals a ∧ a.depth ≤ rootDepth s'.maxDepth ∧
        (s'.language = .java → ∀ r ∈ a.results t, r.isValue) := by
  have hlocal := h.isLocal
  have henter : s.CanEnter { s.frame with inFuncBody := true } :=
    { rooted := hs.rooted
      opened := hs.here
      body := fun _ => by
        refine ⟨h.ns ▸ hlocal.className?_eq, fun r hr => ?_⟩
        show s.frame.ns.isWithin r
        have hr : s.frame.captureRoot = some r := hr
        rw [h.root] at hr
        rw [h.ns, ← (Option.ite_none_right_eq_some.mp hr).2 |> Option.some.inj]
        exact Namespace.isWithin_refl _
      root := fun hroot => by
        rcases hroot with hroot | hroot
        · exact absurd (h.ns ▸ hroot) hlocal.ne_global
        · exact absurd (h.ns ▸ hlocal.className?_eq) hroot }
  refine .inFrame ?_
  have hs₀ := hs.withFrame henter
  have he₀ : Served { s with frame := { s.frame with inFuncBody := true } } e 0 := he.withFrame le_rfl
  refine (he₀.body hs₀ ht (h.ns ▸ hlocal.ne_global) ⟨rfl, fun _ => h.branch⟩ (fun d hd => ?_)
    (.inr h.ns)).imp fun a s' hstep ha => ⟨hstep.advances.leaveFrame hs, ?_⟩
  -- The scope of the function holds its parameters and no local yet.
  · obtain ⟨hd, hd'⟩ := mem_localDecls.mp hd
    have hd : d ∈ s.decls s.frame.ns := hd
    rw [h.ns] at hd
    rw [hlocals d hd] at hd'
    cases hd'
  · have hframe : s'.frame = { s.frame with inFuncBody := true } := hstep.frame
    refine ⟨?_, ha.depth.trans bodyDepth_le_rootDepth, ha.results⟩
    have hfits : s'.FitsHere noLocals a := ha.fits.targets ⟨fun x hx => absurd hx
      (h.not_outerTargets hstep.sound (by rw [hframe]) (by rw [hframe])), id⟩
    unfold FitsHere at hfits ⊢
    rw [hframe] at hfits
    exact fits_withFrame.mpr hfits

/-! ## Completion -/

end Gen

theorem Context.mem_modifyFirst_of {α : Type} {q : α → Bool} {h : α → α} {xs : List α} {x z : α} (hx : x ∈ xs)
    (hq : q x) (hz : ∀ y ∈ xs, q y → h y = z) : z ∈ Context.modifyFirst q h xs := by
  induction xs with
  | nil => cases hx
  | cons y ys ih =>
    rw [Context.modifyFirst]
    split
    · exact hz y List.mem_cons_self ‹_› ▸ List.mem_cons_self
    · rename_i hy
      rcases List.mem_cons.mp hx with rfl | hx
      · exact absurd hq hy
      · exact List.mem_cons_of_mem _ (ih hx fun y hy => hz y (List.mem_cons_of_mem _ hy))

namespace Session

theorem Replaces.mem_self (h : Replaces P s ns f g) : .func g ∈ (s.replaced ns g).declarations ns := by
  rw [declarations_replaced, if_pos rfl]
  refine Context.mem_modifyFirst_of h.mem ?_ fun d _ hd => ?_
  · simp [Bindings.isNamed, Decl.kind, Decl.name, h.name_eq]
  · cases d with
    | func => rfl
    | _ => simp [Bindings.isNamed, Decl.kind] at hd

theorem MethodSig.mono (h : s.MethodSig c f) (hs : s.Sound) (hl : s.Leads s') (hc : c ∈ s.classes) :
    s'.MethodSig c f :=
  ⟨h.method, fun ho => overridesFunc_mono hs hl (hs.classes c hc).supers (h.overrides ho), h.respects⟩

/-- What is known of a function that was registered as `f` and completed. -/
structure FuncDone (s s' : Session) (parent : Namespace) (f g : FuncDecl) : Prop where
  outline : Decl.outline (.func g) = Decl.outline (.func f)
  mem : .func g ∈ s'.decls parent
  others : parent ≠ .global → ∀ d ∈ s'.decls parent, d ∈ s.decls parent ∨ d = .func g
  fits : ∀ root, (¬parent.IsLocal → root = none) → s'.Fits parent root noTargets (g.places ·)

/-- A function is completed with its body. -/
theorem FuncReady.complete (hf : FuncReady P s parent true f) {b : Expr} :
    Decl.outline (.func { f with body := some b }) = Decl.outline (.func f) := by
  have hbody := hf.body
  rw [if_pos rfl] at hbody
  simp only [Decl.outline, hbody, Option.map_some]

end Session

/-- A step is growth. -/
theorem Gen.Ensures.advance {α : Type} {x : Gen α} {Q : α → Session → Prop} (h : x.Ensures (Step P) s Q) :
    x.Ensures (Advances P) s fun a s' => s.Step P s' ∧ Q a s' :=
  h.imp fun _ _ hstep ha => ⟨hstep.advances, hstep, ha⟩

/-- Growth is growth as a wider permit has it. -/
theorem Gen.Ensures.relax {α : Type} {x : Gen α} {Q : α → Session → Prop} {P' : Permit}
    (h : x.Ensures (Advances P') s Q) (hP : s.Allows P' P) :
    x.Ensures (Advances P) s fun a s' => s.Advances P' s' ∧ Q a s' :=
  h.imp fun _ _ hstep ha => ⟨⟨hstep.toExtends.relax hP, hstep.sound⟩, hstep, ha⟩

namespace Gen

/-- **The body takes its place.** -/
theorem updateFunc_ensures {f₀ : FuncDecl} (hs : s.Sound) (h : s.InFunc parent g.name)
    (hr : Replaces P s parent f₀ g) (howner : Owner P s g parent)
    (hfits : ∀ root, (¬parent.IsLocal → root = none) → s.Fits parent root noTargets (g.places ·)) :
    (updateFunc parent g).Ensures (Step P) s fun _ s' => .func g ∈ s'.decls parent ∧
      ∀ d ∈ s'.decls parent, d ∈ s.decls parent ∨ d = .func g := by
  cases howner with
  | scope hclass hP =>
    refine (updateFunc_step hs hr hclass (fun hglobal => hglobal ▸ hfits none fun _ => rfl)
      fun hns => absurd hns h.ne_parent).mono fun _ s' _ heq => ?_
    rw [heq]
    exact ⟨hr.mem_self, fun d hd => (hr.mem_replaced hd).imp_right (·.2)⟩
  | @cls c hc hmaking hscopes hP hsig himplemented hextensible =>
    refine (updateMethod_step hs hr hc hmaking hP
      (hsig.ok himplemented hextensible (hfits none fun _ => rfl))).mono fun _ s' _ heq => ?_
    rw [heq]
    refine ⟨?_, fun d hd => ?_⟩
    · show _ ∈ Context.declarations _ _
      rw [Session.context_withContext, declarations_modifyClass, if_neg (scope_ne_global c)]
      exact hr.mem_self
    · have hd : d ∈ Context.declarations _ _ := hd
      rw [Session.context_withContext, declarations_modifyClass, if_neg (scope_ne_global c)] at hd
      exact (hr.mem_replaced hd).imp_right (·.2)

theorem declareFunc_ensures (hs : s.Sound) (h : s.InFunc parent f.name) (he : s.Served e 0)
    (hP : P.scopes (parent.child f.name)) (hopen : P.making (parent.child f.name))
    (hempty : s.decls (parent.child f.name) = [])
    (hf : FuncReady P s parent hasBody f) :
    (declareFunc e parent (parent.child f.name) hasBody f).Ensures (Advances P) s fun g s' =>
      s.FuncDone s' parent f g := by
  set inner := parent.child f.name with hinner
  have hne : parent ≠ inner := Namespace.ne_child (Namespace.isWithin_refl parent)
  have hrelax : ∀ {s₁ : Session}, s₁.Allows (.within inner) P := allows_within_of_covers (.inr hP)
  have hopening : ∀ {s₁ : Session}, s₁.Allows (.opening inner) P :=
    ⟨fun _ _ _ heq => heq ▸ hP, fun _ _ heq => heq ▸ hopen, fun _ _ h => h.elim⟩
  have hnoParams : s.ParamsAre inner (parameters f.params) := fun p hp => by
    rw [hempty] at hp
    cases hp
  unfold declareFunc
  refine (attachFunc_ensures hs h hf hnoParams).advance.bind fun _ s₁ _ hattached => ?_
  obtain ⟨h₁, hdecls₁, hclass₁⟩ := hattached
  have hparent₁ : s₁.decls parent = s.decls parent ++ [.func f] := by
    rw [hdecls₁ parent (em (parent = .global)).symm, if_pos rfl]
  have hempty₁ : s₁.decls inner = [] := by
    rw [hdecls₁ inner (.inl h.isLocal.ne_global), if_neg (Ne.symm hne), hempty]
    rfl
  have hin₁ := h.step h₁
  refine ((addParams_ensures (P := .opening inner) (m := inner) h₁.sound
    (show Decl.func f ∈ s₁.decls parent by rw [hparent₁]; simp) (hin₁.opened_self h₁.sound) h.isLocal rfl rfl hne
    (fun _ => id) hf.names.distinct (by simp [hempty₁]) fun p hp a ha => h₁.toLeads.shapesRoot
      (hf.defaults p hp a ha).2).advance.relax hopening).bind fun _ s₂ _ hparams => ?_
  obtain ⟨-, h₂, hdecls₂⟩ := hparams
  have hstep₂ : s.Step P s₂ := h₁.trans (h₂.relax hopening)
  have hin₂ := h.step hstep₂
  have hparent₂ : s₂.decls parent = s.decls parent ++ [.func f] := by
    rw [hdecls₂, if_neg hne, List.append_nil, hparent₁]
  split
  · rename_i hbody
    subst hbody
    refine ((funcBody_ensures h₂.sound hin₂ (he.step hstep₂) hf.types.2.1 fun d hd => ?_).relax hrelax).bind
      fun body s₃ _ hb => ?_
    · rw [hdecls₂, hempty₁, if_pos rfl, List.nil_append] at hd
      obtain ⟨p, -, rfl⟩ := List.mem_map.mp hd
      rfl
    obtain ⟨h₃, hfits, hdepth, hresults⟩ := hb
    set g : FuncDecl := { f with body := some body } with hg
    have houtline : Decl.outline (.func g) = Decl.outline (.func f) := hf.complete
    have hs₃ := h₃.sound
    have hleads₃ : s.Leads s₃ := hstep₂.toLeads.trans h₃.toLeads
    have hin₃ : s₃.InFunc parent g.name := hin₂.mono h₃.toLeads h₃.frame
    -- The function may have been registered anew at the top level, but not with another outline.
    obtain ⟨f₀, hf₀, hf₀outline⟩ : ∃ f₀, .func f₀ ∈ s₃.decls parent ∧ Decl.outline (.func f₀) = Decl.outline (.func f) := by
      have hmem : Decl.func f ∈ s₂.decls parent := by rw [hparent₂]; simp
      obtain ⟨d, hd, heq⟩ := List.mem_map.mp ((h₃.decls parent).subset (List.mem_map_of_mem hmem))
      obtain ⟨f₀, rfl, -⟩ := Decl.exists_of_outline_func heq.symm rfl
      exact ⟨f₀, hd, heq⟩
    have hparams₃ : ∀ p ∈ g.params, s₃.Spent p.name ∧ s₃.IsParamName p.name := by
      intro p hp
      obtain ⟨_, heq, -, hps, -⟩ := Decl.exists_of_outline_func hf₀outline.symm rfl
      cases heq
      exact ⟨hleads₃.spent _ (hf.names.spent _ (List.mem_cons_of_mem _ (List.mem_map_of_mem hp))),
        hs₃.isParamName hf₀ (hps ▸ hp)⟩
    -- The body adds no parameters to the scope.
    have hown₃ : s₃.ParamsAre inner (parameters g.params) := fun p hp => by
      have hp₂ := h₃.params inner (opened_mono hstep₂.toLeads (h.opened_self hs)) id p hp
      rw [hdecls₂, hempty₁, if_pos rfl, List.nil_append] at hp₂
      obtain ⟨q, hq, heq⟩ := List.mem_map.mp hp₂
      cases heq
      exact ⟨_, List.mem_map.mpr ⟨p, hq, rfl⟩⟩
    have hgfits : ∀ root, (¬parent.IsLocal → root = none) → s₃.Fits parent root noTargets (g.places ·) :=
      fun root hroot => hs₃.fits_func hin₃ hf.kind (fun p hp a ha => by
          rw [hin₃.root, ← h.root]
          exact (hf.defaults p hp a ha).1.mono hleads₃ (.refl _))
        (fun a ha => Option.some.inj ha ▸ hfits) hparams₃ hown₃ hroot
    have hr : Replaces P s₃ parent f₀ g :=
      { mem := hf₀
        outline := houtline.trans hf₀outline.symm
        permitted := by
          cases hf.owner with
          | scope _ hP => exact hP
          | cls _ _ hscopes => exact .inr hscopes
        shapes := shapes_func hf.types (fun p hp a ha => hleads₃.shapesRoot (hf.defaults p hp a ha).2)
          fun a ha => Option.some.inj ha ▸ ⟨hdepth, hresults⟩ }
    have howner : Owner P s₃ g parent := by
      cases hf.owner with
      | scope hclass hP => exact .scope hclass hP
      | @cls c hc hmaking hscopes howner hsig himplemented hextensible =>
        have hmem : c.withMember (.func f) ∈ s₃.classes :=
          h₂.sound.class_mem hs₃ h₃.toExtends (h₁.sound.class_mem h₂.sound h₂.toExtends (hclass₁ c hc rfl) hne) id
        have hsig₃ := hsig.complete (b := body) |>.mono hs hleads₃ hc
        refine Owner.cls (c := c.withMember (.func f)) hmem ?_ hscopes howner
          ⟨hsig₃.method, hsig₃.overrides, hsig₃.respects⟩ (fun _ => rfl) nofun
        show s₃.unfinished.contains c.name
        rw [h₃.unfinished, hstep₂.unfinished]
        exact hmaking
    refine (updateFunc_ensures hs₃ hin₃ hr howner hgfits).advance.bind fun _ s₄ _ hupdated => ?_
    obtain ⟨h₄, hmem, hothers⟩ := hupdated
    refine .pure ⟨.refl P s₄, h₄.sound⟩ ⟨houtline, hmem, fun hglobal d hd => ?_, fun root hroot =>
      (hgfits root hroot).mono h₄.toLeads (.refl _)⟩
    refine (hothers d hd).elim (fun hd₃ => ?_) .inr
    have hsame := h₃.same parent (opened_mono hstep₂.toLeads h.opened) hglobal hne
    unfold decls Context.declarations at hd₃
    rw [hsame] at hd₃
    have hd₂ : d ∈ s₂.decls parent := hd₃
    rw [hparent₂, List.mem_append] at hd₂
    refine hd₂.imp_right fun hd₂ => ?_
    rw [List.mem_singleton.mp hd₂] at hd ⊢
    exact List.inj_on_of_nodup_map (h₄.sound.keys parent) hd hmem rfl
  · refine .pure ⟨.refl P s₂, h₂.sound⟩ ⟨rfl, by rw [hparent₂]; simp, fun _ d hd => ?_, fun root hroot =>
      (hf.fits hs h hnoParams hroot).mono hstep₂.toLeads (.refl _)⟩
    rw [hparent₂, List.mem_append] at hd
    exact hd.imp_right List.mem_singleton.mp

end Gen

end ProgramGen

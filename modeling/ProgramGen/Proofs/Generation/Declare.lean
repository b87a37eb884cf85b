import ProgramGen.Proofs.Generation.Function

/-!
# Declarations of functions

A function is declared at the top level, in the body of another one, or in a class. What is given of
it has to suit the place, what is not is chosen there; seen from around, one function is declared that
returns what was asked for.
-/

namespace ProgramGen

open Session

variable {s s' s₁ s₂ s₃ : Session} {t u : Ty} {e : Engine} {P : Permit} {n : String} {c : ClassDecl}
variable {f g : FuncDecl} {p : ParamDecl} {ps : List ParamDecl} {parent ns : Namespace} {d : Decl}
variable {spec : FuncSpec} {sig : Signature}

/-! ## What is given -/

namespace Session

/-- A function of the scope `parent` named `n` can have the parameter. -/
structure ParamReady (P : Permit) (s : Session) (parent : Namespace) (n : String) (p : ParamDecl) : Prop where
  plain : p.ty.Plain
  spent : s.Spent p.name
  ne : p.name ≠ n
  name : (¬s.Taken p.name ∧ P.names p.name) ∨ ∃ m g, .func g ∈ s.decls m ∧ ∃ q ∈ g.params, q.name = p.name
  default : ∀ a ∈ p.defaultValue,
    s.Fits parent s.frame.captureRoot noTargets (fun v => [(v, a)]) ∧ s.ShapesRoot a

/-- A function can have the name in the scope `parent`: nothing has it, or it overrides a function in
a class. -/
inductive NameFree (P : Permit) (s : Session) (parent : Namespace) (n : String) : Prop where
  | fresh (h : ¬s.Taken n) (hP : P.names n)
  | override {m : Namespace} {g : FuncDecl} (hclass : parent.className? ≠ none) (hg : .func g ∈ s.decls m)
      (hname : g.name = n) (hfree : ∀ g, .func g ∈ s.decls parent → g.name ≠ n)

end Session

/-- What is given of the function can be used. -/
structure FuncSpec.Suits (spec : FuncSpec) (P : Permit) (s : Session) (parent : Namespace) (n : String) :
    Prop where
  ret : ∀ t ∈ spec.ret, t.Requested
  typeParams : ∀ ps ∈ spec.typeParams, (∀ p ∈ ps, (Ty.param p).Plain) ∧ (ps.map (·.name)).Nodup
  params : ∀ ps ∈ spec.params, (∀ p ∈ ps, ParamReady P s parent n p) ∧ (ps.map (·.name)).Nodup
  whole : spec.ret = none → spec.params = none

/-- The function has a signature of the class: one that is chosen there, or one that is given and
overrides another. -/
inductive FuncSpec.Signs (spec : FuncSpec) (s : Session) (c : ClassDecl) : Prop where
  | chosen (hoverride : spec.isOverride = false) (htypeParams : spec.typeParams = none)
      (hparams : spec.params = none) (hret : ∀ t ∈ spec.ret, t.isVoid ∨ ResultFits c t)
  | given {sig : Signature} (htypeParams : spec.typeParams = some sig.typeParams)
      (hparams : spec.params = some sig.params) (hret : spec.ret = some sig.ret) (hall : sig.UsesAll)
      (h : ∀ f : FuncDecl, (∀ n ∈ spec.name, f.name = n) → f.typeParams = sig.typeParams →
        f.params = sig.params → f.ret = sig.ret → f.isOverride = spec.isOverride → s.MethodSig c f)

/-- Where the function can be declared: in a scope, with a body, or in a class in the making. -/
inductive FuncSpec.Place (spec : FuncSpec) (P : Permit) (s : Session) : Namespace → Prop where
  | scope {m : Namespace} (hclass : m.className? = none) (hP : P.Covers m) (habstract : spec.isAbstract = false)
      (hinterface : spec.isInterface = false) : Place spec P s m
  | cls {c : ClassDecl} (hc : c ∈ s.classes) (hmaking : s.isUnfinished c.name) (hscopes : P.scopes c.scope)
      (hP : P.making c.scope) (hsig : spec.Signs s c)
      (hregular : c.kind = .regular → spec.isAbstract = false ∧ spec.isInterface = false) : Place spec P s c.scope

/-! ## Stages -/

namespace Gen

theorem funcCanOverride_ensures {kind : FuncKind} : (funcCanOverride spec kind).Ensures OnlyDraws s fun b _ =>
    spec.isAbstract ∨ spec.isInterface → b := by
  unfold funcCanOverride
  split
  · exact .pure (refl_of OnlyDraws s) fun _ => rfl
  · rename_i hnot
    refine (Ensures.onlyIf (R := OnlyDraws) (refl_of OnlyDraws s) fun _ => .coin).mono fun _ _ _ _ h => ?_
    exact absurd (by simpa using h) hnot

theorem funcHasBody_ensures : (funcHasBody spec).Ensures OnlyDraws s fun b _ =>
    b = false → spec.isAbstract ∨ spec.isInterface := by
  unfold funcHasBody
  split
  · rename_i h
    exact .pure (refl_of OnlyDraws s) fun _ => .inr h
  · refine (Ensures.onlyIf (R := OnlyDraws) (refl_of OnlyDraws s) fun _ => .chance).bind fun b s₁ h₁ hb => ?_
    exact .pure (refl_of OnlyDraws s₁) fun hnot => .inl (hb (by simpa using hnot))

/-- The parameters of a function: those that are given, or new ones. -/
theorem funcParams_ensures (hs : s.Sound) (h : s.InFunc parent n) (he : s.Served e 0) (hspent : s.Spent n)
    (hnames : ∀ x, ¬s.Spent x → P.names x)
    (hgiven : ∀ ps ∈ spec.params, (∀ p ∈ ps, ParamReady P s parent n p) ∧ (ps.map (·.name)).Nodup) :
    (funcParams e parent spec).Ensures (Aside parent) s fun ps s' =>
      (∀ p ∈ ps, ParamReady P s' parent n p) ∧ (ps.map (·.name)).Nodup ∧ (∀ qs ∈ spec.params, ps = qs) ∧
        (spec.params = none → ∀ p ∈ ps, Chosen s inputTypes.Allows p.ty) := by
  unfold funcParams
  split
  · rename_i qs hqs
    obtain ⟨hready, hdistinct⟩ := hgiven qs hqs
    refine .pure (.refl hs) ⟨hready, hdistinct, fun _ h => ?_, fun h => by rw [hqs] at h; cases h⟩
    rw [hqs] at h
    exact Option.some.inj h
  · rename_i hnone
    refine (genFuncParams_ensures hs h he).mono fun ps s' hstep hps => ?_
    refine ⟨fun p hp => ?_, hps.2, fun _ h => (by rw [hnone] at h; cases h), fun _ p hp => (hps.1 p hp).chosen⟩
    have hnew := hps.1 p hp
    exact
      { plain := hnew.chosen.plain
        spent := hnew.spent
        ne := fun heq => hnew.unspent (heq ▸ hspent)
        name := .inl ⟨hnew.free, hnames _ hnew.unspent⟩
        default := hstep.frame ▸ hnew.default }

theorem funcReturnType_ensures (hs : s.Sound) (hspec : spec.ret = none →
      ∀ p ∈ ps, Chosen s inputTypes.Allows p.ty) :
    (funcReturnType spec ps).Ensures OnlyDraws s fun t _ =>
      (∀ r ∈ spec.ret, t = r) ∧ (spec.ret = none → Chosen s outputTypes.Allows t ∨ t = s.language.voidType) := by
  unfold funcReturnType
  split
  · rename_i t ht
    refine .pure (refl_of OnlyDraws s) ⟨fun _ h => ?_, fun h => by rw [ht] at h; cases h⟩
    rw [ht] at h
    exact Option.some.inj h
  · rename_i hnone
    refine (genReturnType_ensures hs (hspec hnone)).mono fun t _ _ ht => ⟨fun _ h => ?_, fun _ => ht⟩
    rw [hnone] at h
    cases h

end Gen

/-! ## Signatures -/

/-- What the signature of a new function adds to. -/
def Permit.signature (parent : Namespace) (n : String) : Permit :=
  ⟨fun m => m = parent ∨ m = parent.child n, (· = parent.child n), fun _ => False⟩

namespace Session

/-- A function that was registered stays so, with its parameters. -/
theorem Extends.func_mem {m : Namespace} (h : s.Extends P s') (hg : .func g ∈ s.decls m) :
    ∃ g', .func g' ∈ s'.decls m ∧ g'.name = g.name ∧ g'.params = g.params := by
  obtain ⟨d, hd, heq⟩ := List.mem_map.mp ((h.decls m).subset (List.mem_map_of_mem hg))
  obtain ⟨g', rfl, hname, hparams, -⟩ := Decl.exists_of_outline_func heq.symm rfl
  exact ⟨g', hd, hname, hparams⟩

theorem ParamReady.mono {P' : Permit} (h : ParamReady P s parent n p) (hext : s.Extends P' s')
    (hP' : ¬P'.names p.name) : ParamReady P s' parent n p where
  plain := h.plain
  spent := hext.spent _ h.spent
  ne := h.ne
  name := h.name.imp (fun hname => ⟨fun ht => hname.1 ((hext.taken _ h.spent ht).resolve_right hP'), hname.2⟩)
    fun ⟨m, _, hg, hq⟩ =>
      let ⟨g', hg', _, heq⟩ := hext.func_mem hg
      ⟨m, g', hg', heq ▸ hq⟩
  default a ha :=
    ⟨hext.frame ▸ (h.default a ha).1.mono hext.toLeads (.refl _), hext.toLeads.shapesRoot (h.default a ha).2⟩

/-- The signature that was made for a function of the scope `parent` named `n`. -/
structure Signed (P : Permit) (s s' : Session) (spec : FuncSpec) (parent : Namespace) (n : String)
    (sig : Signature) : Prop where
  params : ∀ p ∈ sig.params, ParamReady P s' parent n p
  distinctParams : (sig.params.map (·.name)).Nodup
  plain : ∀ p ∈ sig.typeParams, (Ty.param p).Plain
  distinct : (sig.typeParams.map (·.name)).Nodup
  ret : sig.ret.Requested
  given : ∀ t ∈ spec.ret, sig.ret = t
  types : (s'.context.scope (parent.child n)).types = sig.typeParams
  empty : s'.decls (parent.child n) = []
  nothing : parent.IsLocal → ∀ d ∈ s'.decls parent, d.isLocal → d ∈ s.decls parent
  method : ∀ c ∈ s.classes, parent = c.scope → spec.Signs s c →
    ∀ sig', sig.Prunes sig' → (sig.UsesAll → sig' = sig) → ∀ f : FuncDecl, (∀ n ∈ spec.name, f.name = n) →
      f.typeParams = sig'.typeParams → f.params = sig'.params → f.ret = sig'.ret →
      f.isOverride = spec.isOverride → s'.MethodSig c f

end Session

namespace Gen

/-- The signature of a new function before what is not used is dropped. -/
def funcSignature (e : Engine) (spec : FuncSpec) (parent : Namespace) (name : String) : Gen Signature := do
  let typeParams ← genFuncTypeParams (parent.child name) (.inside parent) spec.typeParams
  let params ← funcParams e parent spec
  let ret ← funcReturnType spec params
  return ⟨typeParams, params, ret⟩

theorem genFuncInside_eq : genFuncInside e spec parent n = (do
    let l := (← get).language
    let canOverride ← funcCanOverride spec (.inside parent)
    let sig ← funcSignature e spec parent n
    let hasBody ← funcHasBody spec
    let sig ← pruneTypeParams (parent.child n) sig
    declareFunc e parent (parent.child n) hasBody
      { name := n
        params := sig.params
        ret := sig.ret
        body := if hasBody then some (.unresolved l.voidType) else none
        kind := .inside parent
        typeParams := sig.typeParams
        isFinal := !canOverride
        isOverride := spec.isOverride }) := by
  simp only [genFuncInside, funcSignature, bind_assoc, pure_bind]

/-- **The signature of a new function.** -/
theorem funcSignature_ensures (hs : s.Sound) (h : s.InFunc parent n) (he : s.Served e 0) (hspent : s.Spent n)
    (hnames : ∀ x, ¬s.Spent x → P.names x) (hempty : s.context.scope (parent.child n) = .empty)
    (hspec : spec.Suits P s parent n) :
    (funcSignature e spec parent n).Ensures (Step (.signature parent n)) s fun sig s' =>
      Signed P s s' spec parent n sig := by
  have hne : parent ≠ parent.child n := Namespace.ne_child (Namespace.isWithin_refl parent)
  have hnoTypes : (s.context.scope (parent.child n)).types = [] := by rw [hempty]; rfl
  have hnoDecls : s.decls (parent.child n) = [] := by unfold decls Context.declarations; rw [hempty]; rfl
  unfold funcSignature
  refine (genFuncTypeParams_ensures (P := .signature parent n) hs h (.inr rfl) rfl hnoTypes
    hspec.typeParams).bind fun tps s₁ h₁ hpost => ?_
  obtain ⟨hbinds, hfresh⟩ := hpost
  have hin₁ := h.step h₁
  have hgiven : ∀ ps ∈ spec.params, (∀ p ∈ ps, ParamReady P s₁ parent n p) ∧ (ps.map (·.name)).Nodup :=
    fun ps hps => ⟨fun p hp => ((hspec.params ps hps).1 p hp).mono h₁.toExtends id, (hspec.params ps hps).2⟩
  have hallows : s₁.Allows (.within parent) (.signature parent n) :=
    ⟨fun m _ _ hm => .inl hm, fun _ _ h => h.elim, fun _ _ h => h.elim⟩
  have hparams : (funcParams e parent spec).Ensures (Step (.signature parent n)) s₁ fun ps s₂ =>
      s₁.Aside parent s₂ ∧ (∀ p ∈ ps, ParamReady P s₂ parent n p) ∧ (ps.map (·.name)).Nodup ∧
        (∀ qs ∈ spec.params, ps = qs) ∧ (spec.params = none → ∀ p ∈ ps, Chosen s₁ inputTypes.Allows p.ty) :=
    (funcParams_ensures h₁.sound hin₁ (he.step h₁) (h₁.spent _ hspent)
      (fun x hx => hnames x fun hx' => hx (h₁.spent _ hx')) hgiven).imp fun _ _ hstep hpost =>
        ⟨hstep.toStep.relax hallows, hstep, hpost⟩
  refine hparams.bind fun ps s₂ h₂ hpost => ?_
  obtain ⟨haside, hready, hdistinct, hpsgiven, hchosen⟩ := hpost
  have hsees : ∀ q, s₂.SeesParam q ↔ s₁.SeesParam q := fun q => haside.toExtends.seesParam h₁.sound fun _ => id
  refine ((funcReturnType_ensures h₂.sound fun hnone p hp =>
    (hchosen (hspec.whole hnone) p hp).of_sees fun q => (hsees q).mpr).drawStep h₂.sound).bind fun ret s₃ h₃ hpost => ?_
  obtain ⟨⟨stream, rfl⟩, hretgiven, hretchosen⟩ := hpost
  refine .pure (.refl h₃.sound) ?_
  have hlocal := h.isLocal
  have hinner : s₂.context.scope (parent.child n) = s₁.context.scope (parent.child n) :=
    haside.same _ (hin₁.opened_self h₁.sound) hlocal.ne_global (Ne.symm hne)
  have htps : (∀ p ∈ tps, (Ty.param p).Plain) ∧ (tps.map (·.name)).Nodup := by
    rcases hfresh with ⟨hfresh, -⟩ | ⟨hgiven, -⟩
    · exact ⟨hfresh.plain, hfresh.distinct⟩
    · exact hspec.typeParams tps hgiven
  have hret : ret.Requested := by
    cases hspecRet : spec.ret with
    | none => exact (hretchosen hspecRet).imp (·.plain) fun heq => ⟨_, heq⟩
    | some t => exact hretgiven t hspecRet ▸ hspec.ret t hspecRet
  refine
    { params := fun p hp => (hready p hp).mono h₃.toExtends id
      distinctParams := hdistinct
      plain := htps.1
      distinct := htps.2
      ret := hret
      given := hretgiven
      types := ?_
      empty := ?_
      nothing := fun hparent d hd hdlocal => hbinds.decls parent ▸ haside.nothing hparent d hd hdlocal
      method := fun c hc hparent hsigns sig' hprunes hall f hfname hfts hfps hfret hoverride => ?_ }
  · show (s₂.context.scope _).types = _
    rw [hinner, hbinds.types, if_pos rfl, hnoTypes, List.nil_append]
  · show (s₂.context.scope _).decls = _
    rw [hinner]
    exact (hbinds.decls _).trans hnoDecls
  · subst hparent
    have hc₁ : c ∈ s₁.classes := classes_of_decls hbinds.decls ▸ hc
    have hleads₃ : s₁.Leads (s₂.atStream stream) := h₂.toLeads.trans h₃.toLeads
    cases hsigns with
    | given htypeParams hparams hspecRet hsigall hf =>
      rename_i sig₀
      obtain rfl : tps = sig₀.typeParams := by
        rcases hfresh with ⟨-, hnone | hclass⟩ | ⟨hsome, -⟩
        · rw [hnone] at htypeParams
          cases htypeParams
        · exact absurd rfl (hs.ne_scope_of_isLocal hclass hc)
        · exact Option.some.inj (hsome.symm.trans htypeParams)
      obtain rfl := hpsgiven _ hparams
      obtain rfl := hretgiven _ hspecRet
      obtain rfl := hall hsigall
      exact (hf f hfname hfts hfps hfret hoverride).mono hs (h₁.toLeads.trans hleads₃) hc
    | chosen hnoOverride hnone hnoParams hspecRet =>
      obtain ⟨hfresh, -⟩ : FreshParams s true s.visibleLetters tps ∧ _ := hfresh.resolve_right fun hsome => by
        rw [hnone] at hsome
        cases hsome.1
      have hmethod := hs.inMethod hc h hnoTypes hfresh hbinds h₁.frame
      refine (hmethod.methodSig hfresh (fun p hp => ?_) (fun p hp => hs.isSteady_fresh hc h hnoTypes hfresh hp)
        (hchosen hnoParams) hdistinct ?_ hprunes hfts hfps hfret (hoverride.trans hnoOverride)).mono
          h₁.sound hleads₃ hc₁
      · refine Context.exists_mem_types (m := c.scope) (Namespace.mem_lineage.mpr ⟨?_, nofun⟩) (hs.ownTypes c hc ▸ hp)
        rw [h.ns]
        exact Namespace.isWithin_child ..
      · cases hspecRet' : spec.ret with
        | none =>
          refine (hretchosen hspecRet').imp (fun hret => hret.of_sees fun q => (hsees q).mp) fun heq => .inl ?_
          rw [heq]
          rfl
        | some t =>
          rw [hretgiven t hspecRet']
          exact .inr (hspecRet t hspecRet')

end Gen

/-! ## Declarations -/

namespace Session

theorem NameFree.mono (h : NameFree P s parent n) (hl : s.Step (.signature parent n) s')
    (hspent : s.Spent n) (hopened : s.Opened parent) : NameFree P s' parent n := by
  cases h with
  | fresh hfree hP => exact .fresh (fun ht => (hl.taken _ hspent ht).elim hfree id) hP
  | @override m g hclass hg hname hfree =>
    obtain ⟨g', hg', hname', -⟩ := hl.func_mem hg
    refine .override hclass hg' (hname'.trans hname) fun f hf => hfree f ?_
    have hne : ¬(Permit.signature parent n).making parent := Namespace.ne_child (Namespace.isWithin_refl parent)
    have hmem : Decl.func f ∈ (s'.decls parent).filter Decl.isMember := List.mem_filter.mpr ⟨hf, rfl⟩
    rw [hl.inside parent hopened hclass hne] at hmem
    exact (List.mem_filter.mp hmem).1

/-- A signature and a name make the names of a function. -/
theorem NameFree.funcNames (h : NameFree P s parent n) (hspent : s.Spent n) (hname : f.name = n)
    (hparams : ∀ p ∈ f.params, ParamReady P s parent n p) (hdistinct : (f.params.map (·.name)).Nodup) :
    FuncNames P s parent f where
  spent x hx := by
    rcases List.mem_cons.mp hx with rfl | hx
    · exact hname ▸ hspent
    · obtain ⟨p, hp, rfl⟩ := List.mem_map.mp hx
      exact (hparams p hp).spent
  free g hg heq := by
    cases h with
    | fresh hfree => exact hfree ⟨parent, _, hg, by rw [← hname, ← heq]; exact List.mem_cons_self⟩
    | override _ _ _ hfree => exact hfree g hg (heq.trans hname)
  name := by
    cases h with
    | fresh hfree hP => exact .inl (hname ▸ ⟨hfree, hP⟩)
    | override _ hg hgname => exact .inr ⟨_, _, hg, hgname.trans hname.symm⟩
  params p hp := (hparams p hp).name
  distinct := hdistinct
  ne p hp := hname ▸ (hparams p hp).ne

/-- What was declared as a function of the scope `parent` named `n`. -/
structure FuncMade (s s' : Session) (spec : FuncSpec) (parent : Namespace) (n : String) (f : FuncDecl) :
    Prop where
  mem : .func f ∈ s'.decls parent
  name : f.name = n
  ret : ∀ t ∈ spec.ret, f.ret = t
  others : parent.IsLocal → ∀ d ∈ s'.decls parent, d.isLocal → d ∈ s.decls parent ∨ d = .func f
  fits : ∀ root, (¬parent.IsLocal → root = none) → s'.Fits parent root noTargets (f.places ·)
  whole : parent.className? = none → f.isAbstract = false
  members : parent.className? ≠ none → ∀ d ∈ s'.decls parent, d.isMember → d ∈ s.decls parent ∨ d = .func f

theorem place_allows (h : spec.Place P s parent) (hP : P.scopes (parent.child n))
    (hmaking : P.making (parent.child n)) : s₁.Allows (.signature parent n) P where
  scopes m _ hglobal hm := by
    rcases hm with rfl | rfl
    · cases h with
      | scope _ hP => exact hP.resolve_left hglobal
      | cls _ _ hscopes => exact hscopes
    · exact hP
  making m _ hm := (show m = _ from hm) ▸ hmaking
  names _ _ h := h.elim

end Session

namespace Gen

theorem signs_mono (h : spec.Signs s c) (hs : s.Sound) (hl : s.Leads s') (hc : c ∈ s.classes) :
    spec.Signs s' c := by
  cases h with
  | chosen hoverride htypeParams hparams hret => exact .chosen hoverride htypeParams hparams hret
  | given htypeParams hparams hret hall h =>
    exact .given htypeParams hparams hret hall fun f hn hts hps hf ho => (h f hn hts hps hf ho).mono hs hl hc

/-- **A function is made in its scope.** -/
theorem genFuncInside_ensures (hs : s.Sound) (h : s.InFunc parent n) (he : s.Served e 0) (hspent : s.Spent n)
    (hname : NameFree P s parent n) (hnames : ∀ x, ¬s.Spent x → P.names x)
    (hempty : s.context.scope (parent.child n) = .empty) (hgiven : ∀ x ∈ spec.name, n = x)
    (hP : P.scopes (parent.child n)) (hmaking : P.making (parent.child n))
    (hspec : spec.Suits P s parent n) (hplace : spec.Place P s parent) :
    (genFuncInside e spec parent n).Ensures (Advances P) s fun f s' => s.FuncMade s' spec parent n f := by
  have hlocal := h.isLocal
  -- Each part of the signature touches no more than the function's own scope, which the permit of
  -- the whole allows.
  have hallows : ∀ {s₁ : Session}, s₁.Allows (.signature parent n) P := place_allows hplace hP hmaking
  rw [genFuncInside_eq]
  refine .get ?_
  extract_lets l
  refine ((funcCanOverride_ensures.drawStep hs).advance.relax hallows).bind fun canOverride s₁ _ hpost => ?_
  obtain ⟨-, h₁, ⟨stream₁, rfl⟩, hcanOverride⟩ := hpost
  have hspec₁ : spec.Suits P (s.atStream stream₁) parent n := ⟨hspec.ret, hspec.typeParams, fun ps hps =>
    ⟨fun p hp => ((hspec.params ps hps).1 p hp).mono h₁.toExtends id, (hspec.params ps hps).2⟩, hspec.whole⟩
  refine (((funcSignature_ensures h₁.sound (h.step h₁) (he.step h₁) (h₁.spent _ hspent)
    (fun x hx => hnames x fun hx' => hx (h₁.spent _ hx')) hempty hspec₁).advance).relax hallows).bind
      fun sig s₂ _ hpost => ?_
  obtain ⟨-, h₂, hsigned⟩ := hpost
  refine ((funcHasBody_ensures.drawStep h₂.sound).advance.relax hallows).bind fun hasBody s₃ _ hpost => ?_
  obtain ⟨-, h₃, ⟨stream₃, rfl⟩, hhasBody⟩ := hpost
  have hstep₃ := h₁.trans (h₂.trans h₃)
  have hin₃ := h.step hstep₃
  refine (((pruneTypeParams_ensures (P := .signature parent n) h₃.sound (hin₃.opened_self h₃.sound) (.inr rfl) rfl
    hlocal.ne_global hlocal.className?_eq (fun _ => hsigned.types) hsigned.distinct hsigned.plain).advance).relax hallows).bind
      fun sig' s₄ _ hpost => ?_
  obtain ⟨-, h₄, hprunes, hall, hdecls₄⟩ := hpost
  have hstep₄ := hstep₃.trans h₄
  have hin₄ := h.step hstep₄
  -- This is the function as declared first, with its body unresolved.
  set f : FuncDecl := ⟨n, sig'.params, sig'.ret, if hasBody then some (.unresolved l.voidType) else none,
    .inside parent, sig'.typeParams, !canOverride, spec.isOverride⟩ with hf
  have hfparams : ∀ p ∈ f.params, ParamReady P s₄ parent n p := fun p hp =>
    (hsigned.params p (hprunes.params ▸ hp)).mono (h₃.trans h₄).toExtends id
  have hflags : hasBody = false → spec.isAbstract ∨ spec.isInterface := hhasBody
  -- Whoever owns the function admits this signature: a scope takes any, a class the one its header
  -- asks for.
  have howner : Owner P s₄ f parent := by
    cases hplace with
    | scope hclass hP => exact .scope hclass hP
    | @cls c hc hunfinished hscopes hclass hsig hregular =>
      have hne : ¬(Permit.signature c.scope n).making c.scope := Namespace.ne_child (Namespace.isWithin_refl _)
      have hc₂ : c ∈ s₂.classes := hs.class_mem h₂.sound (h₁.trans h₂).toExtends hc hne
      have hsig₂ := hsigned.method c hc rfl (signs_mono hsig hs h₁.toLeads hc) sig' hprunes hall f hgiven rfl rfl rfl rfl
      refine .cls (h₂.sound.class_mem h₄.sound (h₃.trans h₄).toExtends hc₂ hne) ?_ hscopes hclass
        (hsig₂.mono h₂.sound (h₃.trans h₄).toLeads hc₂) (fun hk => ?_) fun ha => ?_
      · show s₄.unfinished.contains c.name
        rw [hstep₄.unfinished]
        exact hunfinished
      · obtain ⟨habstract, hinterface⟩ := hregular hk
        cases hasBody with
        | true => rfl
        | false => simp [habstract, hinterface] at hflags
      · cases hasBody with
        | true => cases ha
        | false => simp [hf, hcanOverride (hflags rfl)]
  have hready : FuncReady P s₄ parent hasBody f :=
    { kind := rfl
      names := (hname.mono hstep₄ hspent h.opened).funcNames (hstep₄.spent _ hspent) rfl hfparams
        (by rw [hf, hprunes.params]; exact hsigned.distinctParams)
      types := ⟨fun p hp => (hfparams p hp).plain, by rw [hf, hprunes.ret]; exact hsigned.ret, fun p hp =>
        hprunes.closed _ Ty.Plain.closed (fun l => l.plain_builtin (k := .any) (by decide)) hsigned.plain p hp⟩
      defaults := fun p hp => (hfparams p hp).default
      body := by rw [hstep₄.language]
      owner := howner }
  have hemptyInner : s₄.decls (parent.child f.name) = [] := (hdecls₄ _).trans hsigned.empty
  refine (declareFunc_ensures (f := f) h₄.sound hin₄ (he.step hstep₄) hP hmaking hemptyInner hready).mono
    fun g s₅ h₅ hdone => ?_
  -- The body is the only thing that has changed since, so the outline carries the signature over.
  obtain ⟨g', heq, hgname, -, hret, -, -, -, -, habstract⟩ := Decl.exists_of_outline_func hdone.outline.symm rfl
  cases heq
  exact
    { mem := hdone.mem
      name := hgname
      ret := fun t ht => hret.trans (hprunes.ret.trans (hsigned.given t ht))
      others := fun hparent d hd hdlocal => (hdone.others hparent.ne_global d hd).imp_left fun hd =>
        hsigned.nothing hparent d (hdecls₄ parent ▸ hd) hdlocal
      fits := hdone.fits
      whole := fun hclass => by
        cases hplace with
        | scope _ _ hnotAbstract hnotInterface =>
          rw [habstract]
          cases hasBody with
          | true => rfl
          | false => simp [hnotAbstract, hnotInterface] at hflags
        | @cls c hc =>
          rw [hs.className?_scope hc] at hclass
          cases hclass
      members := fun hclass d hd hmember => by
        have hglobal : parent ≠ .global := fun hglobal => hclass (hglobal ▸ Namespace.className?_global)
        have hinside := hstep₄.inside parent h.opened hclass (Namespace.ne_child (Namespace.isWithin_refl _))
        refine (hdone.others hglobal d hd).imp_left fun hd => ?_
        have hmem := List.mem_filter.mpr ⟨hd, hmember⟩
        rw [hinside] at hmem
        exact (List.mem_filter.mp hmem).1 }

end Gen

/-! ## Functions seen from around -/

/-- The name of the function is new, or it is given and can be used. -/
inductive FuncSpec.Named (spec : FuncSpec) (P : Permit) (s : Session) (parent : Namespace) : Prop where
  | fresh (hname : spec.name = none) (hparams : spec.params = none)
  | given {n : String} (hname : spec.name = some n) (hspent : s.Spent n) (hfree : NameFree P s parent n)
      (hlower : parent = .global → startsUppercase n = false) (hempty : s.context.scope (parent.child n) = .empty)
      (hscopes : P.scopes (parent.child n)) (hmaking : P.making (parent.child n))
      (hother : s.frame.ns ≠ parent.child n)
      (hparams : ∀ ps ∈ spec.params,
        (∀ p ∈ ps, ParamReady P s parent n p ∧ p.defaultValue = none) ∧ (ps.map (·.name)).Nodup)

/-- The function can be declared in the scope. -/
structure FuncSpec.Declarable (spec : FuncSpec) (P : Permit) (s : Session) (parent : Namespace) : Prop where
  ns : spec.ns.getD s.frame.ns = parent
  rooted : parent.segments.head? = some Namespace.globalSegment
  opened : s.Opened parent
  place : spec.Place P s parent
  named : spec.Named P s parent
  placed : parent = s.frame.ns → parent.IsLocal → s.HasPlace
  ret : ∀ t ∈ spec.ret, t.Requested
  typeParams : ∀ ps ∈ spec.typeParams, (∀ p ∈ ps, (Ty.param p).Plain) ∧ (ps.map (·.name)).Nodup
  whole : spec.ret = none → spec.params = none

/-- What a function of the scope `parent` named `n` adds to, beside names that are drawn from `s` on. -/
def Permit.func (P : Permit) (s : Session) (parent : Namespace) (n : String) : Permit where
  scopes m := m = parent.child n ∨ (m = parent ∧ P.scopes parent)
  making m := m = parent.child n ∨ (m = parent ∧ P.making parent)
  names x := ¬s.Spent x ∨ P.names x

namespace Session

/-- A scope that is not in use may be added to by any permit. -/
theorem allows_func (h : ¬s.Opened (parent.child n)) : s.Allows (P.func s parent n) P :=
  ⟨fun _ ho _ hm => hm.elim (fun heq => absurd (heq ▸ ho) h) fun hm => hm.1 ▸ hm.2,
    fun _ ho hm => hm.elim (fun heq => absurd (heq ▸ ho) h) fun hm => hm.1 ▸ hm.2,
    fun _ hx hn => .inl (hn.resolve_left (not_not.mpr hx))⟩

theorem NameFree.withFrame {f : Frame} (h : NameFree P s parent n) : NameFree P { s with frame := f } parent n := by
  cases h with
  | fresh hfree hP => exact .fresh hfree hP
  | override hclass hg hname hfree => exact .override hclass hg hname hfree

/-- A scope is in use if the scope around it is, and its own name. -/
theorem opened_child (h : s.Opened ns) (hn : s.Spent n) : s.Opened (ns.child n) := fun x hx =>
  (List.mem_append.mp hx).elim (h x) fun hx => List.mem_singleton.mp hx ▸ hn

/-- The frame inside a function can be entered. -/
theorem canEnterFunc (hrooted : parent.segments.head? = some Namespace.globalSegment)
    (hopened : s.Opened (parent.child n)) (hlower : parent = .global → startsUppercase n = false) :
    s.CanEnter (s.frame.enterFunc (.inside parent) (parent.child n)) where
  rooted := Namespace.head?_child hrooted
  opened := hopened
  body := nofun
  root hroot := by
    exfalso
    rcases hroot with hroot | hroot
    · exact Namespace.child_ne_global hrooted hroot
    · refine hroot ?_
      by_cases hglobal : parent = .global
      · exact Namespace.className?_child_of_lower (hlower hglobal)
      · exact Namespace.className?_child_of_ne_global hrooted hglobal

/-- What is known of a function that was declared in the scope `parent`. -/
structure FuncDeclared (s s' : Session) (spec : FuncSpec) (parent : Namespace) (f : FuncDecl) : Prop where
  mem : .func f ∈ s'.decls parent
  ret : ∀ t ∈ spec.ret, f.ret = t
  name : ∀ n ∈ spec.name, f.name = n
  fresh : spec.name = none → ¬s.Spent f.name
  members : parent.className? ≠ none → ∀ d ∈ s'.decls parent, d.isMember → d ∈ s.decls parent ∨ d = .func f

/-- The name that was found for a new function. -/
structure NameFound (P : Permit) (s s' : Session) (spec : FuncSpec) (parent : Namespace) (n : String) :
    Prop where
  step : s.Step (P.func s parent n) s'
  context : s'.context = s.context
  frame : s'.frame = s.frame
  given : ∀ x ∈ spec.name, n = x
  fresh : spec.name = none → ¬s.Spent n
  spent : s'.Spent n
  free : NameFree (P.func s parent n) s' parent n
  lower : parent = .global → startsUppercase n = false
  empty : s'.context.scope (parent.child n) = .empty
  other : s.frame.ns ≠ parent.child n
  allows : s.Allows (P.func s parent n) P
  params : ∀ ps ∈ spec.params, (∀ p ∈ ps, ParamReady (P.func s parent n) s' parent n p ∧ p.defaultValue = none) ∧
    (ps.map (·.name)).Nodup

end Session

namespace Gen

theorem funcName_ensures (hs : s.Sound) (hspec : spec.Declarable P s parent) :
    (funcName spec).Ensures (fun _ _ => True) s fun n s' => NameFound P s s' spec parent n := by
  unfold funcName
  -- The name is drawn, and so is unspent, or given, and then the specification vouches for it.
  cases hspec.named with
  | fresh hname hparams =>
    rw [hname]
    refine (word_step (P := .within .global) hs).imp fun n s' hstep hnew => ⟨trivial, ?_⟩
    obtain ⟨hnew, hlower⟩ := hnew
    have hclosed : ¬s.Opened (parent.child n) := not_opened_child hnew.unspent
    exact
      { step := hnew.step hs
        context := hnew.context
        frame := hstep.frame
        given := fun x hx => by rw [hname] at hx; cases hx
        fresh := fun _ => hnew.unspent
        spent := hnew.spent
        free := .fresh (fun ht => hnew.not_taken hs ((taken_of_context hnew.context).mp ht)) (.inl hnew.unspent)
        lower := fun _ => hlower
        empty := by
          rw [hnew.context]
          exact not_not.mp fun hne => hclosed (hs.opened _ hne)
        other := fun heq => hclosed (heq ▸ hs.here)
        allows := allows_func hclosed
        params := fun ps hps => by rw [hparams] at hps; cases hps }
  | @given n hname hspent hfree hlower hempty hscopes hmaking hother hparams =>
    rw [hname]
    refine .pure trivial ?_
    exact
      { step := .refl hs
        context := rfl
        frame := rfl
        given := fun x hx => Option.some.inj (hname.symm.trans hx)
        fresh := fun hnone => by rw [hname] at hnone; cases hnone
        spent := hspent
        free := by
          cases hfree with
          | fresh h hP => exact .fresh h (.inr hP)
          | override hclass hg hname hfree => exact .override hclass hg hname hfree
        lower := hlower
        empty := hempty
        other := hother
        allows := ⟨fun m _ _ hm => hm.elim (fun h => h ▸ hscopes) fun h => h.1 ▸ h.2,
          fun m _ hm => hm.elim (fun h => h ▸ hmaking) fun h => h.1 ▸ h.2,
          fun x hx hn => .inl (hn.resolve_left (not_not.mpr hx))⟩
        params := fun ps hps => ⟨fun p hp => by
          obtain ⟨⟨hplain, hspent, hne, hname, -⟩, hdefault⟩ := (hparams ps hps).1 p hp
          exact ⟨⟨hplain, hspent, hne, hname.imp_left fun h => ⟨h.1, .inr h.2⟩,
            fun a ha => by rw [hdefault] at ha; cases ha⟩, hdefault⟩, (hparams ps hps).2⟩ }

/-- **A function is declared.** -/
theorem genFuncDecl_ensures (hs : s.Sound) (he : s.Served e 1) (hspec : spec.Declarable P s parent) :
    (genFuncDecl e spec).Ensures (Step P) s fun f s' => s.FuncDeclared s' spec parent f := by
  rw [genFuncDecl_eq]
  refine (funcName_ensures hs hspec).seq fun n s₁ _ hn => ?_
  refine .get ?_
  rw [hn.frame, hspec.ns]
  have hs₁ := hn.step.sound
  have hopened₁ : s₁.Opened parent := opened_mono hn.step.toLeads hspec.opened
  -- The function is generated inside a frame of its own; the permit is narrowed for that time.
  set f₀ : Frame := s₁.frame.enterFunc (.inside parent) (parent.child n) with hf₀
  set s₀ : Session := { s₁ with frame := f₀ } with hs₀
  have henter : s₁.CanEnter f₀ := canEnterFunc hspec.rooted (opened_child hopened₁ hn.spent) hn.lower
  have hin : s₀.InFunc parent n :=
    ⟨rfl, rfl, rfl, rfl, hspec.rooted, hn.lower, opened_withFrame.mpr hopened₁⟩
  have he₀ : s₀.Served e 0 := Served.withFrame (he.step hn.step) le_rfl
  have hsuits : spec.Suits (P.func s parent n) s₀ parent n :=
    { ret := hspec.ret
      typeParams := hspec.typeParams
      params := fun ps hps => ⟨fun p hp => ?_, (hn.params ps hps).2⟩
      whole := hspec.whole }
  swap
  · obtain ⟨⟨hplain, hspent, hne, hname, -⟩, hdefault⟩ := (hn.params ps hps).1 p hp
    exact ⟨hplain, spent_withFrame.mpr hspent, hne, hname, fun a ha => by rw [hdefault] at ha; cases ha⟩
  have hplace₀ : spec.Place (P.func s parent n) s₀ parent := by
    cases hspec.place with
    | scope hclass hP habstract hinterface =>
      exact .scope hclass (hP.imp_right fun h => .inr ⟨rfl, h⟩) habstract hinterface
    | @cls c hc hmaking hscopes hP hsig hregular =>
      refine .cls (classes_of_context hn.context ▸ hc) ?_ (.inr ⟨rfl, hscopes⟩) (.inr ⟨rfl, hP⟩)
        (signs_mono hsig hs (hn.step.toLeads.trans (leads_withFrame s₁ f₀)) hc) hregular
      show s₁.unfinished.contains c.name
      rw [hn.step.unfinished]
      exact hmaking
  have hfree₀ : NameFree (P.func s parent n) s₀ parent n := hn.free.withFrame
  refine .inFrame ((genFuncInside_ensures (P := P.func s parent n) (hs₁.withFrame henter) hin he₀
    (spent_withFrame.mpr hn.spent) hfree₀ (fun x hx => .inl fun hx' => hx (spent_withFrame.mpr (hn.step.spent x hx')))
    hn.empty hn.given (.inl rfl) (.inl rfl) hsuits hplace₀).imp fun f s₂ hadvances hmade => ?_)
  have hleave := hadvances.leaveFrame hs₁
  have hext := hn.step.toExtends.trans hleave.toExtends
  refine ⟨⟨hext.relax hn.allows, hleave.sound, fun hlocal d hd => ?_⟩, hmade.mem, hmade.ret,
    fun x hx => hmade.name.trans (hn.given x hx), fun hnone => hmade.name ▸ hn.fresh hnone,
    fun hclass d hd hmember => ?_⟩
  swap
  · refine (hmade.members hclass d hd hmember).imp_left fun hd => ?_
    rwa [← decls_of_context hn.context]
  obtain ⟨hd, hdlocal⟩ := mem_localDecls.mp hd
  have hd : d ∈ s₂.decls s.frame.ns := hn.frame ▸ hd
  -- A declaration the caller finds in its own scope is an old one or this function.
  by_cases hparent : parent = s.frame.ns
  · subst hparent
    rcases hmade.others hlocal d hd hdlocal with hd | rfl
    · exact .inl (mem_localDecls.mpr ⟨by rw [← decls_of_context hn.context]; exact hd, hdlocal⟩)
    · refine .inr ⟨nofun, ?_, nofun, fun g hg => ?_, (hspec.placed rfl hlocal).mono hext.toLeads hn.frame⟩
      · show Session.Fits _ s₁.frame.ns _ _ _
        rw [hn.frame]
        exact fits_withFrame.mpr (hmade.fits _ fun h => absurd hlocal h)
      · cases hg
        exact hmade.whole hlocal.className?_eq
  · have hother : ¬(P.func s parent n).scopes s.frame.ns := fun hm =>
      hm.elim hn.other fun hm => hparent hm.1.symm
    have hsame := hext.same s.frame.ns hs.here hlocal.ne_global hother
    refine .inl (mem_localDecls.mpr ⟨?_, hdlocal⟩)
    unfold decls Context.declarations at hd ⊢
    rw [← hsame]
    exact hd

end Gen

end ProgramGen

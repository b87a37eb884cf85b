import ProgramGen.Proofs.Generation.Fits
import ProgramGen.Proofs.Program.Members
import ProgramGen.Proofs.Run.Outcome

/-!
# Growing sessions

Growth composes, and it can be seen from around: what is added to a scope that was not in use is no
change. What holds of a class goes on to hold while the classes above it stay what they are, and a
sound session stays sound where only its source, its counters or its frame change.
-/

namespace ProgramGen

namespace Session

variable {s s' s₁ s₂ s₃ : Session} {P P' : Permit} {ns m : Namespace} {c d : ClassDecl} {n x : String}
variable {T T' : Demand} {e : Expr}

/-! ## Classes of a sound session -/

theorem Registered.distinctClasses (hs : s.Registered) : s.context.DistinctClasses := by
  have hkeys := hs.keys .global
  show (s.context.programClasses.map _).Nodup
  unfold Context.programClasses
  rw [Context.classes_global]
  refine List.Nodup.of_map (fun n => (DeclKind.cls, n)) ?_
  refine hkeys.sublist ?_
  rw [List.map_map]
  show List.Sublist _ ((s.context.declarations .global).map fun d => (d.kind, d.name))
  induction s.context.declarations .global with
  | nil => exact .slnil
  | cons d ds ih =>
    rw [List.filterMap_cons]
    cases d <;> first | exact ih.cons _ | exact ih.cons_cons _

namespace Sound

theorem class_eq (hs : s.Sound) (hc : c ∈ s.classes) (hd : d ∈ s.classes) (h : c.name = d.name) :
    c = d :=
  hs.distinctClasses.eq_of_name hc hd h

theorem class?_eq (hs : s.Sound) (hc : c ∈ s.classes) : s.class? c.name = some c := by
  unfold class? Context.class?
  cases hfind : (s.context.classes .global false).find? (·.name == c.name) with
  | none =>
    have := List.find?_eq_none.mp hfind c hc
    simp at this
  | some d =>
    have hname : d.name = c.name := by simpa using List.find?_some hfind
    rw [hs.class_eq (List.mem_of_find?_eq_some hfind) hc hname]

theorem super_isObject (hs : s.Sound) (hc : c ∈ s.classes) {sup : SuperDecl} (hsup : sup ∈ c.supers) :
    sup.ty.isObject :=
  (hs.classes c hc).plain.objects rfl _ (List.mem_map_of_mem hsup)

/-- The finished classes are above finished classes only. -/
theorem settled (hs : s.Sound) :
    s.context.Settled fun d => d ∈ s.classes ∧ s.isUnfinished d.name = false where
  mem _ hd := hd.1
  supers d hd sup hsup := by
    obtain ⟨d', hd', hfinished, hsuits⟩ := (hs.classes d hd.1).supers sup hsup
    exact ⟨hs.super_isObject hd.1 hsup, d', ⟨hd', hfinished⟩, hsuits.name⟩

theorem kept (hs : s.Sound) : s.context.Kept := ⟨hs.members, fun c hc => (hs.classes c hc).named⟩

theorem class_mem_taken (hs : s.Sound) (hc : c ∈ s.classes) : s.Spent c.name :=
  hs.spent_name (Context.mem_classes_global.mp hc)

end Sound

theorem Leads.mem_settled (hl : s.Leads s') (h : d ∈ s.classes ∧ s.isUnfinished d.name = false) :
    d ∈ s'.context.programClasses :=
  (hl.finished d h.1 h.2).1

/-- What a class inherits it goes on to inherit. -/
theorem Sound.inherits_mono {α : Type} {members : ClassDecl → List α} {name : α → String} {a : α}
    {v : Subst} {sup : SuperDecl} (hs : s.Sound) (hl : s.Leads s')
    (hsup : ∃ d ∈ s.classes, s.isUnfinished d.name = false ∧ d.name = sup.ty.name)
    (h : s.context.Inherits members name n sup.ty a v) :
    s'.context.Inherits members name n sup.ty a v := by
  obtain ⟨d, hd, hfinished, hname⟩ := hsup
  exact h.of_settled hs.settled (fun _ => hl.mem_settled) hs.distinctClasses ⟨d, ⟨hd, hfinished⟩, hname⟩

theorem overridesFunc_mono (hs : s.Sound) (hl : s.Leads s')
    (hsupers : ∀ sup ∈ c.supers, ∃ d ∈ s.classes, s.isUnfinished d.name = false ∧ sup.Suits c d)
    {f : FuncDecl} (h : s.context.OverridesFunc c f) : s'.context.OverridesFunc c f := by
  obtain ⟨g, v, ⟨sup, hsup, hinherits⟩, hrest⟩ := h
  obtain ⟨d, hd, hfinished, hsuits⟩ := hsupers sup hsup
  exact ⟨g, v, ⟨sup, hsup, hs.inherits_mono hl ⟨d, hd, hfinished, hsuits.name⟩ hinherits⟩, hrest⟩

theorem overridesField_mono (hs : s.Sound) (hl : s.Leads s')
    (hsupers : ∀ sup ∈ c.supers, ∃ d ∈ s.classes, s.isUnfinished d.name = false ∧ sup.Suits c d)
    {f : FieldDecl} (h : s.context.OverridesField c f) : s'.context.OverridesField c f := by
  obtain ⟨g, v, ⟨sup, hsup, hinherits⟩, hrest⟩ := h
  obtain ⟨d, hd, hfinished, hsuits⟩ := hsupers sup hsup
  exact ⟨g, v, ⟨sup, hsup, hs.inherits_mono hl ⟨d, hd, hfinished, hsuits.name⟩ hinherits⟩, hrest⟩

theorem IsOpen.mono (h : s.IsOpen d) (hl : s.Leads s') : s'.IsOpen d :=
  ⟨(hl.finished d h.1 h.2.1).1, (hl.finished d h.1 h.2.1).2, h.2.2⟩

theorem ClassOk.varies_mono (h : s.ClassOk c) (hl : s.Leads s') (hc : c.isGeneric ∨ c.isFinal = false) :
    c.Respects ∧ ∀ sup ∈ c.supers, ∃ d, s'.IsOpen d ∧ sup.ty.IsOf d := by
  refine (h.varies hc).imp_right fun hsupers sup hsup => ?_
  obtain ⟨d, hd, hof⟩ := hsupers sup hsup
  exact ⟨d, hd.mono hl, hof⟩

theorem supers_mono (hl : s.Leads s')
    (hsupers : ∀ sup ∈ c.supers, ∃ d ∈ s.classes, s.isUnfinished d.name = false ∧ sup.Suits c d) :
    ∀ sup ∈ c.supers, ∃ d ∈ s'.classes, s'.isUnfinished d.name = false ∧ sup.Suits c d := by
  intro sup hsup
  obtain ⟨d, hd, hfinished, hsuits⟩ := hsupers sup hsup
  exact ⟨d, (hl.finished d hd hfinished).1, (hl.finished d hd hfinished).2, hsuits⟩

/-- A class that is finished stays complete. -/
theorem Sound.abstractMembers_mono (hs : s.Sound) (hl : s.Leads s') (hdistinct : s'.context.DistinctClasses)
    (hc : c ∈ s.classes) (hfinished : s.isUnfinished c.name = false) {t : Ty} (ht : t.name = c.name) :
    abstractMembers s'.context t = abstractMembers s.context t :=
  abstractMembersWithin_of_settled hs.settled (fun _ => hl.mem_settled) hs.distinctClasses hdistinct
    ⟨c, ⟨hc, hfinished⟩, ht.symm⟩

theorem ownType_name (c : ClassDecl) : c.ownType.name = c.name := by
  unfold ClassDecl.ownType
  split
  · rfl
  · unfold ClassDecl.type
    split <;> rfl

/-- **What holds of a class goes on to hold of it.** -/
theorem Sound.classOk_mono (hs : s.Sound) (hc : c ∈ s.classes) (hl : s.Leads s')
    (hdistinct : s'.context.DistinctClasses)
    (hunfinished : s'.isUnfinished c.name = false → s.isUnfinished c.name = false) : s'.ClassOk c := by
  have hok := hs.classes c hc
  exact
    { named := hok.named
      plain := hok.plain
      distinct := hok.distinct
      finalKind := hok.finalKind
      steady := hok.steady
      telescoped := hok.telescoped
      keeps :=
        { single := hok.keeps.single
          funcs := fun f hf h => overridesFunc_mono hs hl hok.supers (hok.keeps.funcs f hf h)
          fields := fun f hf h => overridesField_mono hs hl hok.supers (hok.keeps.fields f hf h)
          implemented := hok.keeps.implemented
          extensible := hok.keeps.extensible }
      supers := supers_mono hl hok.supers
      methods := hok.methods
      complete := fun hfinished hkind => by
        have hfinished := hunfinished hfinished
        rw [hs.abstractMembers_mono hl hdistinct hc hfinished (ownType_name c)]
        exact hok.complete hfinished hkind
      varies := hok.varies_mono hl
      superArgs := hok.superArgs.mono hl (.refl _)
      superRoots := fun e he => hl.shapesRoot (hok.superRoots e he)
      bodies := fun f hf => (hok.bodies f hf).mono hl (.refl _) }

/-! ## The same symbol table -/

theorem classes_of_decls (h : ∀ m, s'.decls m = s.decls m) : s'.classes = s.classes := by
  show s'.context.classes .global false = s.context.classes .global false
  rw [Context.classes_global, Context.classes_global]
  exact congrArg _ (h .global)

section SameContext

variable (hcontext : s'.context = s.context)
include hcontext

theorem decls_of_context : s'.decls = s.decls := by
  unfold decls
  rw [hcontext]

theorem classes_of_context : s'.classes = s.classes := by
  unfold classes
  rw [hcontext]

theorem Leads.of_context (hlanguage : s'.language = s.language) (hconfig : s'.config = s.config)
    (hspent : ∀ n, s.Spent n → s'.Spent n)
    (hunfinished : ∀ c ∈ s.classes, s.isUnfinished c.name = false → s'.isUnfinished c.name = false) :
    s.Leads s' where
  language := hlanguage
  config := hconfig
  spent := hspent
  keeps ns n := by
    unfold HasMutable
    rw [decls_of_context hcontext]
    exact id
  mutables ns n _ := by
    unfold HasMutable
    rw [decls_of_context hcontext]
    exact id
  members c n := by
    unfold MutableFieldOf
    rw [classes_of_context hcontext]
    exact id
  fields n b _ := by
    unfold HasField
    rw [classes_of_context hcontext]
    exact id
  finished c hc h := by
    rw [classes_of_context hcontext]
    exact ⟨hc, hunfinished c hc h⟩
  distinct h := by rwa [hcontext]
  inSight ns locals n := by
    unfold InSight
    rw [decls_of_context hcontext]
    exact id
  loopLocals n h := hcontext ▸ h
  funcs ns f hf := ⟨f, decls_of_context hcontext ▸ hf, .refl f⟩

theorem Registered.of_context (hs : s.Registered) (hspent : ∀ n, s.Spent n → s'.Spent n) :
    s'.Registered := by
  have hdecls := decls_of_context hcontext
  have htaken : s'.Taken = s.Taken := by
    unfold Taken
    rw [hdecls]
  exact
    { opened := fun ns hne n hn => hspent n (hs.opened ns (hcontext ▸ hne) n hn)
      taken := fun n hn => hspent n (hs.taken n (htaken ▸ hn))
      keys := hdecls ▸ hs.keys
      unique := hdecls ▸ hs.unique
      params := hdecls ▸ hs.params
      classScopes := hdecls ▸ hs.classScopes
      types := hdecls ▸ hs.types }

end SameContext

/-! ## Sound sessions that go on -/

/-- Where a frame can be entered. -/
structure CanEnter (s : Session) (f : Frame) : Prop where
  rooted : f.ns.segments.head? = some Namespace.globalSegment
  opened : s.Opened f.ns
  body : f.inFuncBody → f.ns.className? = none ∧ ∀ r ∈ f.captureRoot, f.ns.isWithin r
  root : f.ns = .global ∨ f.ns.className? ≠ none → f.captureRoot = none

/-- **A sound session goes on to be sound** if what is registered is, classes are as they were or
hold by themselves, and what is new at the top level fits. -/
theorem Sound.advance (hs : s.Sound) (hl : s.Leads s') (hr : s'.Registered)
    (hpool : s'.source.pool.Sound) (hframe : s'.CanEnter s'.frame)
    (hmaking : ∀ n ∈ s'.unfinished, s'.Spent n)
    (hunfinished : ∀ c ∈ s.classes, c ∈ s'.classes → s'.isUnfinished c.name = false →
      s.isUnfinished c.name = false)
    (hmembers : ∀ c ∈ s'.classes,
      c.fields = s'.context.fieldsIn c.scope ∧ c.funcs = s'.context.funcsIn c.scope)
    (hfields : ∀ ns f, .field f ∈ s'.decls ns → ∃ c ∈ s'.classes, ns = c.scope)
    (hglobal : (s'.context.scope .global).types = [])
    (hown : ∀ c ∈ s'.classes, (s'.context.scope c.scope).types = c.typeParams)
    (htypes : ∀ ns, ∀ p ∈ (s'.context.scope ns).types, p ∈ (s.context.scope ns).types ∨
      ((Ty.param p).Plain ∧ (ns.className? ≠ none → ¬IsMarked p.name ∧ (Ty.param p).Tidy)))
    (hclasses : ∀ c ∈ s'.classes, c ∈ s.classes ∨ s'.ClassOk c)
    (hordered : ∀ before c after, s'.classes = before ++ c :: after →
      ∀ sup ∈ c.supers, ∃ d ∈ before, d.name = sup.ty.name)
    (htrees : ∀ d ∈ s'.decls .global, d.kind ≠ .cls →
      d ∈ s.decls .global ∨ s'.Fits .global none noTargets d.places)
    (hshaped : ∀ ns, ∀ d ∈ s'.decls ns, d.kind ≠ .cls → d ∈ s.decls ns ∨ s'.Shapes d) : s'.Sound :=
  { hr with
    pool := hpool
    rooted := hframe.rooted
    here := hframe.opened
    body := hframe.body
    root := hframe.root
    making := hmaking
    notThis := fun m h => hs.notThis m (hl.mutables m "this" (spent_fixed hs.pool List.mem_cons_self) h)
    members := hmembers
    fields := hfields
    globalTypes := hglobal
    ownTypes := hown
    typeParams := fun ns p hp => (htypes ns p hp).elim (hs.typeParams ns p) id
    classes := fun c hc => by
      rcases hclasses c hc with hold | hok
      · exact hs.classOk_mono hold hl hr.distinctClasses (hunfinished c hold hc)
      · exact hok
    ordered := hordered
    trees := fun d hd hkind => by
      rcases htrees d hd hkind with hold | hfits
      · exact (hs.trees d hold hkind).mono hl (.refl _)
      · exact hfits
    shaped := fun ns d hd hkind =>
      (hshaped ns d hd hkind).elim (fun hold => hl.shapes (hs.shaped ns d hold hkind)) id }

/-- A session whose symbol table does not change stays sound. -/
theorem Sound.of_context (hs : s.Sound) (hcontext : s'.context = s.context)
    (hlanguage : s'.language = s.language) (hconfig : s'.config = s.config)
    (hspent : ∀ n, s.Spent n → s'.Spent n) (hpool : s'.source.pool.Sound)
    (hframe : s'.CanEnter s'.frame) (hmaking : ∀ n ∈ s'.unfinished, s'.Spent n)
    (hunfinished : ∀ c ∈ s.classes, s'.isUnfinished c.name = s.isUnfinished c.name) : s'.Sound := by
  have hdecls := decls_of_context hcontext
  have hclasses := classes_of_context hcontext
  refine hs.advance
    (.of_context hcontext hlanguage hconfig hspent fun c hc h => (hunfinished c hc).trans h)
    (hs.toRegistered.of_context hcontext hspent) hpool hframe hmaking
    (fun c hc _ h => (hunfinished c hc).symm.trans h) ?_ ?_ (hcontext ▸ hs.globalTypes) ?_
    (fun ns p hp => .inl (hcontext ▸ hp)) (fun c hc => .inl (hclasses ▸ hc)) (hclasses ▸ hs.ordered)
    (fun d hd _ => .inl (hdecls ▸ hd)) fun ns d hd _ => .inl (hdecls ▸ hd)
  · rw [hclasses, hcontext]
    exact hs.members
  · rw [hclasses, hdecls]
    exact hs.fields
  · rw [hclasses, hcontext]
    exact hs.ownTypes

/-! ## Passing on -/

theorem Passes.refl (hs : s.Sound) : s.Passes s := ⟨fun _ h => h, hs.pool, rfl, rfl, rfl, rfl⟩

theorem Passes.isUnfinished (h : s.Passes s') : s'.isUnfinished n = s.isUnfinished n := by
  unfold Session.isUnfinished
  rw [h.unfinished]

theorem Passes.canEnter (h : s.Passes s') (hs : s.Sound) : s'.CanEnter s'.frame := by
  rw [h.frame]
  exact ⟨hs.rooted, fun n hn => h.spent n (hs.here n hn), hs.body, hs.root⟩

theorem Passes.making (h : s.Passes s') (hs : s.Sound) : ∀ n ∈ s'.unfinished, s'.Spent n := by
  rw [h.unfinished]
  exact fun n hn => h.spent n (hs.making n hn)

/-! ## Growth composes -/

theorem Extends.refl (P : Permit) (s : Session) : s.Extends P s where
  toLeads := .refl s
  frame := rfl
  unfinished := rfl
  decls _ := List.prefix_refl _
  same _ _ _ _ := rfl
  inside _ _ _ _ := rfl
  types _ _ _ := rfl
  params _ _ _ _ h := h
  taken _ _ h := .inl h

theorem opened_mono (hl : s.Leads s') (h : s.Opened ns) : s'.Opened ns := fun n hn =>
  hl.spent n (h n hn)

theorem Extends.trans (h : s₁.Extends P s₂) (h' : s₂.Extends P s₃) : s₁.Extends P s₃ where
  toLeads := h.toLeads.trans h'.toLeads
  frame := h'.frame.trans h.frame
  unfinished := h'.unfinished.trans h.unfinished
  decls ns := (h.decls ns).trans (h'.decls ns)
  same ns hns hglobal hP :=
    (h'.same ns (opened_mono h.toLeads hns) hglobal hP).trans (h.same ns hns hglobal hP)
  inside ns hns hclass hP :=
    (h'.inside ns (opened_mono h.toLeads hns) hclass hP).trans (h.inside ns hns hclass hP)
  types ns hns hP := (h'.types ns (opened_mono h.toLeads hns) hP).trans (h.types ns hns hP)
  params ns hns hP p hp := h.params ns hns hP p (h'.params ns (opened_mono h.toLeads hns) hP p hp)
  taken n hn htaken := (h'.taken n (h.spent n hn) htaken).elim (h.taken n hn) .inr

/-- **Growth seen from around.** -/
theorem Extends.relax (h : s.Extends P' s') (hP : s.Allows P' P) : s.Extends P s' where
  toLeads := h.toLeads
  frame := h.frame
  unfinished := h.unfinished
  decls := h.decls
  same ns hns hglobal hnot := h.same ns hns hglobal fun hP' => hnot (hP.scopes ns hns hglobal hP')
  inside ns hns hclass hnot := h.inside ns hns hclass fun hP' => hnot (hP.making ns hns hP')
  types ns hns hnot := h.types ns hns fun hP' => hnot (hP.making ns hns hP')
  params ns hns hnot := h.params ns hns fun hP' => hnot (hP.making ns hns hP')
  taken n hn htaken := (h.taken n hn htaken).elim .inl fun hP' => (hP.names n hn hP').symm

/-! ## Steps compose -/

theorem HasPlace.mono (h : s.HasPlace) (hl : s.Leads s') (hframe : s'.frame = s.frame) : s'.HasPlace := by
  refine ⟨?_, ?_⟩
  · rw [hframe]
    exact h.body
  · rw [hframe, hl.language]
    exact h.branch

theorem DeclFits.mono {d : Decl} (h : s.DeclFits d) (hl : s.Leads s') (hframe : s'.frame = s.frame) :
    s'.DeclFits d where
  kind := h.kind
  fits := by
    rw [hframe]
    exact h.fits.mono hl (.refl _)
  depth := by
    unfold maxDepth
    rw [hframe, hl.config]
    exact h.depth
  whole := h.whole
  place := h.place.mono hl hframe

theorem Stands.declFits {v : VarDecl} (h : s.Stands noTargets (initDepth s.maxDepth s.frame.depth) v.init)
    (hplace : s.HasPlace) : s.DeclFits (.var v) where
  kind := nofun
  fits := h.fits
  depth w hw := by
    cases hw
    exact h.depth
  whole := nofun
  place := hplace

theorem FitsHere.mono (h : s.FitsHere T e) (hl : s.Leads s') (hframe : s'.frame = s.frame)
    (hT : T.Below T') : s'.FitsHere T' e := by
  unfold FitsHere
  rw [hframe]
  exact Fits.mono h hl hT

theorem localTargets_mono (hl : s.Leads s') (hframe : s'.frame = s.frame) (h : s.LocalTargets n) :
    s'.LocalTargets n := by
  obtain ⟨m, hm, hrest⟩ := h
  exact ⟨m, hl.keeps m n hm, hframe ▸ hrest⟩

theorem outerTargets_mono (hl : s.Leads s') (hframe : s'.frame = s.frame) (h : s.OuterTargets n) :
    s'.OuterTargets n := by
  obtain ⟨m, hm, hrest⟩ := h
  exact ⟨m, hl.keeps m n hm, hframe ▸ hrest⟩

theorem statements_mono (hl : s.Leads s') (hframe : s'.frame = s.frame) : s.statements.Below s'.statements :=
  ⟨fun _ => localTargets_mono hl hframe, id⟩

theorem bodies_mono (hl : s.Leads s') (hframe : s'.frame = s.frame) : s.bodies.Below s'.bodies :=
  ⟨fun _ => outerTargets_mono hl hframe, id⟩

/-- Where there is room for operands, there goes on to be. -/
theorem Step.depth_le (h : s.Step P s') (hdepth : s.frame.depth ≤ 2 * s.maxDepth) :
    s'.frame.depth ≤ 2 * s'.maxDepth := by
  rw [h.frame, h.maxDepth_eq]
  exact hdepth

theorem Step.refl (hs : s.Sound) : s.Step P s := ⟨.refl P s, hs, fun _ _ h => .inl h⟩

theorem Step.trans (h : s₁.Step P s₂) (h' : s₂.Step P s₃) : s₁.Step P s₃ where
  toExtends := h.toExtends.trans h'.toExtends
  sound := h'.sound
  locals hglobal d hd := by
    rcases h'.locals (h.frame ▸ hglobal) d hd with hd | hd
    · exact (h.locals hglobal d hd).imp_right fun hd => hd.mono h'.toLeads h'.frame
    · exact .inr hd

instance : RunRelation (Step P) where
  trans _ _ _ := Step.trans
  refl_right h := .refl h.sound

/-- Growth to a sound session, whatever is declared in the current scope. -/
structure Advances (P : Permit) (s s' : Session) : Prop extends s.Extends P s' where
  sound : s'.Sound

theorem Step.advances (h : s.Step P s') : s.Advances P s' := ⟨h.toExtends, h.sound⟩

instance : RunRelation (Advances P) where
  trans _ _ _ h h' := ⟨h.toExtends.trans h'.toExtends, h'.sound⟩
  refl_right h := ⟨.refl P _, h.sound⟩

theorem Step.relax (h : s.Step P' s') (hP : s.Allows P' P) : s.Step P s' :=
  ⟨h.toExtends.relax hP, h.sound, h.locals⟩

/-- A step that keeps the symbol table. -/
theorem Step.of_context (hs : s.Sound) (hp : s.Passes s') (hcontext : s'.context = s.context) :
    s.Step P s' := by
  have hlocal : s'.localDecls = s.localDecls := by
    unfold localDecls
    rw [hcontext, hp.frame]
  refine ⟨⟨.of_context hcontext hp.language hp.config hp.spent fun c _ h => hp.isUnfinished.trans h,
    hp.frame, hp.unfinished, fun ns => ?_, fun ns _ _ _ => ?_, fun ns _ _ _ => ?_, fun ns _ _ => ?_,
    fun ns _ _ p hp => decls_of_context hcontext ▸ hp, fun n _ h => .inl ?_⟩, ?_, fun _ d hd => .inl (hlocal ▸ hd)⟩
  · rw [decls_of_context hcontext]
  · rw [hcontext]
  · rw [decls_of_context hcontext]
  · rw [hcontext]
  · unfold Taken at h ⊢
    rwa [decls_of_context hcontext] at h
  · exact hs.of_context hcontext hp.language hp.config hp.spent hp.pool (hp.canEnter hs) (hp.making hs) fun c _ =>
      hp.isUnfinished

theorem spent_of_source {s' : Session} (hoffers : ∀ w, s'.source.pool.Offers w → s.source.pool.Offers w)
    (hlambda : s.lambdaCount ≤ s'.lambdaCount) (hloop : s.loopCount ≤ s'.loopCount)
    (hbranch : s.branchCount ≤ s'.branchCount) (hn : s.Spent n) : s'.Spent n := fun hup =>
  hn (hup.of_source hoffers hlambda hloop hbranch)

theorem Passes.atStream (hs : s.Sound) (stream : Stream) : s.Passes (s.atStream stream) :=
  ⟨fun _ => spent_of_source (fun _ h => h) le_rfl le_rfl le_rfl, hs.pool, rfl, rfl, rfl, rfl⟩

theorem Step.atStream (hs : s.Sound) (stream : Stream) : s.Step P (s.atStream stream) :=
  .of_context hs (.atStream hs stream) rfl

end Session

/-! ## Draws, frames and classes in the making -/

namespace Gen.Ensures

open Session

variable {α : Type} {s : Session} {P P' : Permit} {x : Gen α} {Q : α → Session → Prop}

/-- What only draws is a step. -/
theorem drawStep (h : x.Ensures OnlyDraws s Q) (hs : s.Sound) :
    x.Ensures (Step P) s fun a s' => s.OnlyDraws s' ∧ Q a s' :=
  h.ofDraws (.atStream hs)

end Gen.Ensures

end ProgramGen

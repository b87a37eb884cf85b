import ProgramGen.Proofs.Generation.Growth

/-!
# Scopes that are entered and left

What is done in another frame is a step of the session around it: the frame is put back, and what the
computation added to its own scope is seen from around as what its permit allows. While a class is
made it counts as unfinished; when it is finished it has to be complete.
-/

namespace ProgramGen

namespace Session

variable {s s' s₀ : Session} {P P' : Permit} {f : Frame} {ns m : Namespace} {n x name : String}
variable {T : Demand} {e : Expr} {root : Option Namespace} {c : ClassDecl}
variable {places : Visibility → List (Visibility × Expr)} {v : Visibility}

/-! ## Frames -/

theorem spent_withFrame : ({ s with frame := f } : Session).Spent n ↔ s.Spent n :=
  ⟨spent_of_source (fun _ h => h) le_rfl le_rfl le_rfl,
    spent_of_source (fun _ h => h) le_rfl le_rfl le_rfl⟩

theorem opened_withFrame : ({ s with frame := f } : Session).Opened ns ↔ s.Opened ns :=
  forall₂_congr fun _ _ => spent_withFrame

theorem leads_withFrame (s : Session) (f : Frame) : s.Leads { s with frame := f } :=
  .of_context rfl rfl rfl (fun _ => spent_withFrame.mpr) fun _ _ h => h

theorem leads_of_withFrame (s : Session) (f : Frame) : Leads { s with frame := f } s :=
  .of_context rfl rfl rfl (fun _ => spent_withFrame.mp) fun _ _ h => h

theorem fits_withFrame : ({ s with frame := f } : Session).Fits ns root T places ↔
    s.Fits ns root T places :=
  ⟨fun h => h.mono (leads_of_withFrame s f) (.refl T), fun h => h.mono (leads_withFrame s f) (.refl T)⟩

theorem Sound.withFrame (hs : s.Sound) (hf : s.CanEnter f) : Sound { s with frame := f } :=
  hs.of_context rfl rfl rfl (fun _ => spent_withFrame.mpr) hs.pool
    ⟨hf.rooted, opened_withFrame.mpr hf.opened, hf.body, hf.root⟩
    (fun n hn => spent_withFrame.mpr (hs.making n hn)) fun _ _ => rfl

/-- Growth inside a frame is growth. -/
theorem Extends.leaveFrame (h : ({ s with frame := f } : Session).Extends P s') :
    s.Extends P { s' with frame := s.frame } where
  toLeads := (leads_withFrame s f).trans (h.toLeads.trans (leads_withFrame s' s.frame))
  frame := rfl
  unfinished := h.unfinished
  decls := h.decls
  same ns hns := h.same ns (opened_withFrame.mpr hns)
  inside ns hns := h.inside ns (opened_withFrame.mpr hns)
  types ns hns := h.types ns (opened_withFrame.mpr hns)
  params ns hns := h.params ns (opened_withFrame.mpr hns)
  taken n hn := h.taken n (spent_withFrame.mpr hn)

/-- Growth is growth in any frame. -/
theorem Extends.enterFrame (h : s.Extends P s') (f : Frame) :
    Extends P { s with frame := f } { s' with frame := f } where
  toLeads := (leads_of_withFrame s f).trans (h.toLeads.trans (leads_withFrame s' f))
  frame := rfl
  unfinished := h.unfinished
  decls := h.decls
  same ns hns := h.same ns (opened_withFrame.mp hns)
  inside ns hns := h.inside ns (opened_withFrame.mp hns)
  types ns hns := h.types ns (opened_withFrame.mp hns)
  params ns hns := h.params ns (opened_withFrame.mp hns)
  taken n hn := h.taken n (spent_withFrame.mp hn)

theorem localDecls_congr (hns : s.frame.ns = s'.frame.ns) (hcontext : s.context = s'.context) :
    s.localDecls = s'.localDecls := by
  unfold localDecls
  rw [hns, hcontext]

theorem Advances.leaveFrame (hs : s.Sound) (h : ({ s with frame := f } : Session).Advances P s') :
    s.Advances P { s' with frame := s.frame } := by
  have hext : s.Extends P { s' with frame := s.frame } := h.toExtends.leaveFrame
  have hleads : s.Leads s' := hext.toLeads.trans (leads_of_withFrame s' s.frame)
  exact ⟨hext, h.sound.withFrame ⟨hs.rooted, opened_mono hleads hs.here, hs.body, hs.root⟩⟩

/-- A step inside a frame is a step, if what it leaves in the scope around fits there. -/
theorem Advances.leaveFrame_step (hs : s.Sound) (h : ({ s with frame := f } : Session).Advances P' s')
    (hP : s.Allows P' P)
    (hlocals : s.frame.ns.IsLocal → ∀ d ∈ ({ s' with frame := s.frame } : Session).localDecls,
      d ∈ s.localDecls ∨ ({ s' with frame := s.frame } : Session).DeclFits d) :
    s.Step P { s' with frame := s.frame } :=
  ⟨(h.leaveFrame hs).toExtends.relax hP, (h.leaveFrame hs).sound, hlocals⟩

/-- The frame is in the same scope of the same closure, no less deep. -/
structure SameScope (f g : Frame) : Prop where
  ns : f.ns = g.ns
  root : f.captureRoot = g.captureRoot
  branch : f.inValueBranch = g.inValueBranch
  body : f.inFuncBody → g.inFuncBody
  depth : g.depth ≤ f.depth

/-- What can be declared deeper down can be declared. -/
theorem DeclFits.of_withFrame {d : Decl} (h : ({ s with frame := f } : Session).DeclFits d)
    (hf : SameScope f s.frame) : s.DeclFits d where
  kind := h.kind
  fits := by
    rw [← hf.ns, ← hf.root]
    exact fits_withFrame.mp h.fits
  depth v hv := (h.depth v hv).trans (initDepth_mono hf.depth)
  whole := h.whole
  place := ⟨hf.body h.place.body, fun hl => hf.branch ▸ h.place.branch hl⟩

/-- The same scope, no less deep. -/
theorem Step.leaveSameScope (hs : s.Sound) (h : ({ s with frame := f } : Session).Step P s')
    (hf : SameScope f s.frame) : s.Step P { s' with frame := s.frame } := by
  refine h.advances.leaveFrame_step hs ⟨fun _ _ _ h => h, fun _ _ h => h, fun _ _ h => .inl h⟩ fun hglobal d hd => ?_
  have hlocal : ({ s' with frame := s.frame } : Session).localDecls = s'.localDecls :=
    localDecls_congr (hf.ns.symm.trans (congrArg Frame.ns h.frame).symm) rfl
  rw [hlocal] at hd
  refine (h.locals (hf.ns ▸ hglobal) d hd).imp (fun hd => ?_) fun hd => ?_
  · rwa [localDecls_congr (s := { s with frame := f }) hf.ns rfl] at hd
  · refine DeclFits.of_withFrame (f := s'.frame) hd ?_
    rw [h.frame]
    exact hf

/-- Another scope. -/
theorem Step.leaveOtherScope (hs : s.Sound) (h : ({ s with frame := f } : Session).Step P' s')
    (hP : s.Allows P' P) (hother : s.frame.ns.IsLocal → ¬P'.scopes s.frame.ns) :
    s.Step P { s' with frame := s.frame } := by
  refine h.advances.leaveFrame_step hs hP fun hglobal d hd => .inl ?_
  have hsame := h.same s.frame.ns (opened_withFrame.mpr hs.here) hglobal.ne_global (hother hglobal)
  unfold localDecls Context.declarations at hd ⊢
  exact hsame ▸ hd

/-! ## Scopes that are not in use yet -/

theorem allows_refl (s : Session) (P : Permit) : s.Allows P P :=
  ⟨fun _ _ _ h => h, fun _ _ h => h, fun _ _ h => .inl h⟩

theorem not_opened_child (h : ¬s.Spent x) : ¬s.Opened (ns.child x) := fun ho =>
  h (ho x (by simp [Namespace.child]))

/-! ## Classes in the making -/

theorem spent_withUnfinished {names : List String} :
    ({ s with unfinished := names } : Session).Spent n ↔ s.Spent n :=
  ⟨spent_of_source (fun _ h => h) le_rfl le_rfl le_rfl,
    spent_of_source (fun _ h => h) le_rfl le_rfl le_rfl⟩

theorem opened_withUnfinished {names : List String} :
    ({ s with unfinished := names } : Session).Opened ns ↔ s.Opened ns :=
  forall₂_congr fun _ _ => spent_withUnfinished

theorem isUnfinished_cons :
    ({ s with unfinished := name :: s.unfinished } : Session).isUnfinished n =
      (n == name || s.isUnfinished n) :=
  List.contains_cons ..

/-- A class that is to be made is unfinished from before its registration. -/
theorem Sound.beginClass (hs : s.Sound) (hspent : s.Spent name) (hfree : ∀ c ∈ s.classes, c.name ≠ name) :
    Sound { s with unfinished := name :: s.unfinished } := by
  refine hs.of_context rfl rfl rfl (fun _ => spent_withUnfinished.mpr) hs.pool
    ⟨hs.rooted, opened_withUnfinished.mpr hs.here, hs.body, hs.root⟩ (fun n hn => ?_) fun c hc => ?_
  · refine spent_withUnfinished.mpr ?_
    rcases List.mem_cons.mp hn with rfl | hn
    · exact hspent
    · exact hs.making n hn
  · rw [isUnfinished_cons, beq_eq_false_iff_ne.mpr (hfree c hc), Bool.false_or]

theorem leads_beginClass (hfree : ∀ c ∈ s.classes, c.name ≠ name) :
    s.Leads { s with unfinished := name :: s.unfinished } :=
  .of_context rfl rfl rfl (fun _ => spent_withUnfinished.mpr) fun c hc h => by
    rw [isUnfinished_cons, beq_eq_false_iff_ne.mpr (hfree c hc), Bool.false_or]
    exact h

/-- A step is one while a class is made that is not registered in it. -/
theorem Step.beginClass (h : s.Step P s') (hspent : s.Spent name) (hfree : ∀ c ∈ s.classes, c.name ≠ name)
    (hfree' : ∀ c ∈ s'.classes, c.name ≠ name) :
    ({ s with unfinished := name :: s.unfinished } : Session).Step P
      { s' with unfinished := name :: s'.unfinished } := by
  have hfinished : ∀ c ∈ s.classes, ({ s with unfinished := name :: s.unfinished } : Session).isUnfinished c.name =
      s.isUnfinished c.name := fun c hc => by
    rw [isUnfinished_cons, beq_eq_false_iff_ne.mpr (hfree c hc), Bool.false_or]
  refine ⟨⟨⟨h.language, h.config, fun n => ?_, h.keeps, fun ns n hn => ?_, h.members, fun n b hn => ?_,
    fun c hc hf => ?_, h.distinct, h.inSight, h.loopLocals, h.funcs⟩, h.frame, congrArg (name :: ·) h.unfinished, h.decls,
    fun ns hns => ?_, fun ns hns => ?_, fun ns hns => ?_, fun ns hns => h.params ns (opened_withUnfinished.mp hns),
    fun n hn => ?_⟩, h.sound.beginClass (h.spent name hspent) hfree', fun hlocal d hd => ?_⟩
  · exact fun hn => spent_withUnfinished.mpr (h.spent n (spent_withUnfinished.mp hn))
  · exact h.mutables ns n (spent_withUnfinished.mp hn)
  · exact h.fields n b (spent_withUnfinished.mp hn)
  · obtain ⟨hc', hf'⟩ := h.finished c hc ((hfinished c hc).symm.trans hf)
    refine ⟨hc', ?_⟩
    rw [isUnfinished_cons, beq_eq_false_iff_ne.mpr (hfree' c hc'), Bool.false_or]
    exact hf'
  · exact h.same ns (opened_withUnfinished.mp hns)
  · exact h.inside ns (opened_withUnfinished.mp hns)
  · exact h.types ns (opened_withUnfinished.mp hns)
  · exact h.taken n (spent_withUnfinished.mp hn)
  · exact (h.locals hlocal d hd).imp_right fun hd => hd.mono (leads_beginClass hfree') rfl

/-- **A class that is complete is finished.** -/
theorem Step.endClass (h : ({ s with unfinished := name :: s.unfinished } : Session).Step P s')
    (hs : s.Sound) (hfree : ∀ c ∈ s.classes, c.name ≠ name)
    (hcomplete : ∀ c ∈ s'.classes, c.name = name → c.kind = .regular →
      abstractMembers s'.context c.ownType = []) :
    s.Step P { s' with unfinished := s.unfinished } := by
  have hunfinished : ∀ n, s'.isUnfinished n = (n == name || s.isUnfinished n) := fun n => by
    rw [← isUnfinished_cons]
    unfold isUnfinished
    rw [h.unfinished]
  have hout : ∀ n, s'.isUnfinished n = false →
      ({ s' with unfinished := s.unfinished } : Session).isUnfinished n = false := by
    intro n hn
    rw [hunfinished, Bool.or_eq_false_iff] at hn
    exact hn.2
  have hleads' : s'.Leads { s' with unfinished := s.unfinished } :=
    .of_context rfl rfl rfl (fun _ => spent_withUnfinished.mpr) fun c _ => hout c.name
  have hleads : s.Leads { s' with unfinished := s.unfinished } :=
    (leads_beginClass hfree).trans (h.toLeads.trans hleads')
  have hs' := h.sound
  have hregistered : Registered { s' with unfinished := s.unfinished } :=
    hs'.toRegistered.of_context (s := s') rfl fun _ => spent_withUnfinished.mpr
  -- The class that was made is finished now; all others are as they were.
  have hclass : ∀ c ∈ s'.classes, ClassOk { s' with unfinished := s.unfinished } c := by
    intro c hc
    by_cases hname : c.name = name
    · have hok := hs'.classes c hc
      exact
        { named := hok.named
          plain := hok.plain
          distinct := hok.distinct
          finalKind := hok.finalKind
          steady := hok.steady
          telescoped := hok.telescoped
          keeps := hok.keeps
          supers := supers_mono hleads' hok.supers
          methods := hok.methods
          complete := fun _ hkind => hcomplete c hc hname hkind
          varies := hok.varies_mono hleads'
          superArgs := hok.superArgs.mono hleads' (.refl _)
          superRoots := fun e he => hleads'.shapesRoot (hok.superRoots e he)
          bodies := fun f hf => (hok.bodies f hf).mono hleads' (.refl _) }
    · refine hs'.classOk_mono hc hleads' hregistered.distinctClasses fun hf => ?_
      rw [hunfinished, beq_eq_false_iff_ne.mpr hname, Bool.false_or]
      exact hf
  refine ⟨⟨hleads, h.frame, rfl, h.decls,
    fun ns hns => h.same ns (opened_withUnfinished.mpr hns),
    fun ns hns => h.inside ns (opened_withUnfinished.mpr hns),
    fun ns hns => h.types ns (opened_withUnfinished.mpr hns),
    fun ns hns => h.params ns (opened_withUnfinished.mpr hns),
    fun n hn => h.taken n (spent_withUnfinished.mpr hn)⟩, ?_, fun hglobal d hd => ?_⟩
  · exact
      { hregistered with
        pool := hs'.pool
        rooted := hs'.rooted
        here := opened_withUnfinished.mpr hs'.here
        body := hs'.body
        root := hs'.root
        making := fun n hn => hleads.spent n (hs.making n hn)
        notThis := hs'.notThis
        members := hs'.members
        fields := hs'.fields
        globalTypes := hs'.globalTypes
        ownTypes := hs'.ownTypes
        typeParams := hs'.typeParams
        classes := hclass
        ordered := hs'.ordered
        trees := fun d hd hkind => (hs'.trees d hd hkind).mono hleads' (.refl _)
        shaped := hs'.shaped }
  · exact (h.locals hglobal d hd).imp_right fun hd => hd.mono hleads' rfl

end Session

namespace Gen.Ensures

open Session

variable {α : Type} {s : Session} {P P' : Permit} {x : Gen α} {Q : α → Session → Prop}
variable {change : Frame → Frame}

/-- A computation in the same scope at another depth. -/
theorem inSameScope (hs : s.Sound) (hf : SameScope (change s.frame) s.frame)
    (h : ∀ s₀, s₀ = { s with frame := change s.frame } → s₀.Sound →
      x.Ensures (Step P) s₀ fun a s' => Q a { s' with frame := s.frame }) :
    (Gen.inFrame change x).Ensures (Step P) s Q := by
  have henter : s.CanEnter (change s.frame) := by
    refine ⟨hf.ns ▸ hs.rooted, hf.ns ▸ hs.here, fun hb => ?_, fun h => ?_⟩
    · rw [hf.ns, hf.root]
      exact hs.body (hf.body hb)
    · rw [hf.ns] at h
      exact hf.root.trans (hs.root h)
  exact .inFrame ((h _ rfl (hs.withFrame henter)).imp fun _ _ hstep ha =>
    ⟨hstep.leaveSameScope hs hf, ha⟩)

/-- A computation in another scope. -/
theorem inOtherScope (hs : s.Sound) (henter : s.CanEnter (change s.frame)) (hP : s.Allows P' P)
    (hother : s.frame.ns.IsLocal → ¬P'.scopes s.frame.ns)
    (h : ∀ s₀, s₀ = { s with frame := change s.frame } → s₀.Sound →
      x.Ensures (Step P') s₀ fun a s' => Q a { s' with frame := s.frame }) :
    (Gen.inFrame change x).Ensures (Step P) s Q :=
  .inFrame ((h _ rfl (hs.withFrame henter)).imp fun _ _ hstep ha =>
    ⟨hstep.leaveOtherScope hs hP hother, ha⟩)

end Gen.Ensures

end ProgramGen

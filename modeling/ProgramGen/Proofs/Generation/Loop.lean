import ProgramGen.Proofs.Generation.LoopBody

/-!
# Loops

A loop stands among the statements of a body, around a scope of its own. Its variable has a name that
nothing else has, so it never changes; an iterator or a counter is declared around the loop.
-/

namespace ProgramGen

open Session

variable {s s' s₁ : Session} {t iterable elem : Ty} {e : Engine} {P : Permit} {a : Expr} {n x : String} {k : Nat}
variable {ns : Namespace} {b : Block} {d : Decl} {l : Loop} {string : Option String}

namespace Session

/-! ## Names in reserve -/

theorem Sound.taken_of_isMutable (hs : s.Sound) (h : s.IsMutable x) : s.Taken x := by
  rcases h with ⟨m, v, hv, rfl, -⟩ | ⟨c, hc, f, hf, rfl, -⟩
  · exact ⟨m, _, hv, Sound.name_mem_names _⟩
  · exact ⟨_, _, hs.field_mem hc hf, Sound.name_mem_names _⟩

/-- The name is given, and nothing has it. -/
structure Untaken (s : Session) (x : String) : Prop where
  spent : s.Spent x
  free : ¬s.Taken x

theorem NewName.untaken (h : s.NewName x s') (hs : s.Sound) : s'.Untaken x :=
  ⟨h.spent, fun ht => h.not_taken hs ((taken_of_context h.context).mp ht)⟩

theorem Untaken.step (h : s.Untaken x) (hstep : s.Step P s') (hP : ¬P.names x) : s'.Untaken x :=
  ⟨hstep.spent x h.spent, fun ht => (hstep.taken x h.spent ht).elim h.free hP⟩

/-- The name is given to nothing that changes. -/
structure IsSteady (s : Session) (x : String) : Prop where
  spent : s.Spent x
  not_isMutable : ¬s.IsMutable x

theorem Untaken.isSteady (h : s.Untaken x) (hs : s.Sound) : s.IsSteady x :=
  ⟨h.spent, fun hm => h.free (hs.taken_of_isMutable hm)⟩

theorem IsSteady.mono (h : s.IsSteady x) (hl : s.Leads s') : s'.IsSteady x :=
  ⟨hl.spent x h.spent, fun hm => h.not_isMutable (hl.isMutable h.spent hm)⟩

/-- A parameter or a final variable is registered under a name in reserve, in another scope. -/
theorem Untaken.registers (h : s.Untaken d.name) (hnames : d.names = [d.name]) (hkind : d.kind = .var)
    (hfield : ∀ f, d ≠ .field f) (hfinal : ∀ v, d = .var v → v.isFinal) (hns : ns.IsLocal) (hother : ns ≠ s.frame.ns)
    (hopened : s.Opened ns) (hP : P.scopes ns) (hmaking : P.making ns)
    (hperm : P.names d.name) (htypes : d.TypesPlain) (hshapes : s.Shapes d) :
    Registers P s (s.withContext (s.context.push ns d)) ns d where
  scopes _ := rfl
  kind := by rw [hkind]; nofun
  member hm := absurd hns.className?_eq hm
  field := hfield
  welcome := welcomes_of_fresh (fun y hy => by
    rw [hnames] at hy
    rw [List.mem_singleton.mp hy]
    exact h.free) htypes fun f hf => by
      rw [hf] at hkind
      cases hkind
  opened y hy := spent_withContext.mpr (hopened y hy)
  spent y hy := by
    rw [hnames] at hy
    rw [List.mem_singleton.mp hy]
    exact spent_withContext.mpr h.spent
  permitted := .inr (.inl hP)
  taken y hy _ := by
    rw [hnames] at hy
    rw [List.mem_singleton.mp hy]
    exact .inr hperm
  mutables v hv hchanges := by
    rw [hfinal v hv] at hchanges
    cases hchanges
  params _ _ _ := hmaking
  top hglobal := absurd hglobal hns.ne_global
  shapes := hshapes
  here heq := absurd heq hother

end Session

/-! ## Loops as statements -/

namespace Session

/-- **A loop is a statement** if its body is the body of a loop, what it starts from has a value, and its
variable never changes. -/
theorem LoopFits.isStatement (hb : s.LoopFits n l.body) (hinner : IsInner s.frame.ns n)
    (hhead : ∀ a ∈ l.head, s.Stands noTargets k a) (hk : k + 2 ≤ bodyDepth s.maxDepth s.frame.depth)
    (hvariables : ∀ y ∈ l.variables, y.2 = .constant ∧ s.IsSteady y.1)
    (hparams : s.ParamsAre (s.frame.ns.child n) l.variables) : s.IsStatement (.loop l) where
  fits := by
    refine Fits.node ⟨fun hl a ha => (hhead a ha).value hl, hb.decls, nofun⟩ (fun _ _ _ _ => trivial) (fun _ _ => trivial) ?_
    have hparts := (Fits.exprs fun a ha => ((hhead a ha).any (T := s.statements)).fits).append
      (hb.fits.of_child_constants hinner
        (fun y hy => ⟨(hvariables y hy).1, (hvariables y hy).2.1, (hvariables y hy).2.2⟩) hparams)
    simp only [← Loop.places_eq] at hparts
    exact hparts
  depth := by
    obtain ⟨j, hj⟩ := Nat.exists_eq_add_of_le' ((Nat.le_add_left 2 k).trans hk)
    have hdepth : (Expr.loop l).depth ≤ j + 1 := Expr.depth_le_succ fun a ha => by
      rcases List.mem_append.mp ha with ha | ha
      · have := (hhead a ha).depth
        omega
      · have := hb.depth a ha
        omega
    omega

/-- A loop of the current scope can be made, whose own scope is `ns`, and which appends to `string`. -/
structure LoopScope (s : Session) (P : Permit) (e : Engine) (ns : Namespace) (n : String) (string : Option String) :
    Prop where
  ns_eq : ns = s.frame.ns.child n
  opened : s.Opened ns
  isLocal : ns.IsLocal
  isLoop : ns.IsLoop
  lower : startsUppercase n = false
  place : s.HasPlace
  ne_global : s.frame.ns ≠ .global
  covers : P.Covers s.frame.ns
  scopes : P.scopes ns
  making : P.making ns
  names : ∀ x, ¬s.Spent x → P.names x
  exprs : s.ServedExprs e 1
  body : s.frame.depth + 1 < s.maxDepth → s.Served e 1
  string : ∀ x ∈ string, s.AssignableVar x

namespace LoopScope

theorem ne_here (h : s.LoopScope P e ns n string) : ns ≠ s.frame.ns := fun heq =>
  Namespace.ne_child (Namespace.isWithin_refl s.frame.ns) (heq.symm.trans h.ns_eq)

theorem inner (h : s.LoopScope P e ns n string) (hs : s.Sound) : IsInner s.frame.ns n := ⟨hs.rooted, .inr h.lower⟩

theorem step {P' : Permit} (h : s.LoopScope P e ns n string) (hstep : s.Step P' s') : s'.LoopScope P e ns n string where
  ns_eq := hstep.frame ▸ h.ns_eq
  opened := opened_mono hstep.toLeads h.opened
  isLocal := h.isLocal
  isLoop := h.isLoop
  lower := h.lower
  place := h.place.mono hstep.toLeads hstep.frame
  ne_global := hstep.frame ▸ h.ne_global
  covers := hstep.frame ▸ h.covers
  scopes := h.scopes
  making := h.making
  names x hx := h.names x fun hspent => hx (hstep.spent x hspent)
  exprs := h.exprs.step hstep
  body hlt := (h.body (by rwa [hstep.maxDepth_eq, hstep.frame] at hlt)).step hstep
  string x hx := (h.string x hx).step hstep

/-- The scope of the loop is not in use before the loop is made. -/
theorem empty (h : s.LoopScope P e ns n string) (hempty : s.decls ns = []) (hstep : s.Step (.within s.frame.ns) s') :
    s'.decls ns = [] :=
  (congrArg Bindings.decls (hstep.same ns h.opened h.isLocal.ne_global h.ne_here)).trans hempty

theorem relax (h : s.LoopScope P e ns n string) (hstep : s.Step (.within s.frame.ns) s') : s.Step P s' :=
  hstep.relax (allows_within_of_covers h.covers)

end LoopScope

end Session

namespace Gen

/-- **The body of a loop**, whose scope has at most a parameter and an element that comes from an iterator. No
parameters are added. -/
theorem loopScopeBody_ensures {last : Option Expr} {w : Visibility} (hs : s.Sound) (h : s.LoopScope P e ns n string)
    (hdecls : ∀ d ∈ s.decls ns, d.isLocal → ∀ s₀ : Session, s₀.InLoop s.frame n → s.Leads s₀ → s₀.context = s.context →
      s₀.Sound → s₀.DeclFits d)
    (hlast : ∀ a ∈ last, ∃ x, a = .step x .inc ∧ s.AssignableVar x) (hparams : s.ParamsAre ns w) :
    (genLoopBody e ns string last).Ensures (Step P) s fun b s' =>
      s'.LoopFits n b ∧ s'.ParamsAre (s'.frame.ns.child n) w := by
  obtain rfl := h.ns_eq
  refine (genLoopBody_ensures hs (h.exprs.deeper (Nat.le_succ 1)) h.body h.place h.opened h.lower h.isLoop
    (fun s₀ hloop hl hc hs₀ d hd => ?_) h.string hlast).imp fun b s' hstep hb => ⟨?_, hb, fun p hp => ?_⟩
  · obtain ⟨hd, hlocal⟩ := mem_localDecls.mp hd
    rw [decls_of_context hc, hloop.ns] at hd
    exact hdecls d hd hlocal s₀ hloop hl hc hs₀
  · exact hstep.relax ⟨fun _ _ _ heq => heq ▸ h.scopes, fun _ _ hm => hm.elim, fun _ _ hm => hm.elim⟩
  · rw [hstep.frame] at hp
    exact hparams p (hstep.params _ h.opened nofun p hp)

/-- **A loop over the elements of a collection.** -/
theorem forEach_ensures (hs : s.Sound) (h : s.LoopScope P e ns n string) (hempty : s.decls ns = [])
    (hx : s.Untaken x) (hname : P.names x) (helem : elem.Plain) (ha : s.Stands noTargets k a)
    (hk : k + 2 ≤ bodyDepth s.maxDepth s.frame.depth) :
    (do updateContext (·.addVar ns (.param ⟨x, elem, none⟩))
        return .forEach x a (← genLoopBody e ns string none) : Gen Loop).Ensures (Step P) s
      fun l s' => s'.IsStatement (.loop l) := by
  have hregisters := hx.registers (P := P) (d := .param ⟨x, elem, none⟩) rfl rfl nofun (fun _ hv => by cases hv)
    h.isLocal h.ne_here h.opened
    h.scopes h.making hname helem (shapes_param helem nofun)
  refine (addVar_step hs (.refl hs) rfl rfl hregisters).seq fun _ s₁ h₁ heq => ?_
  have hdecls : ∀ d ∈ s₁.decls ns, d = .param ⟨x, elem, none⟩ := fun d hd => by
    rw [heq, declarations_of_push (fun _ => rfl), if_pos rfl, hempty] at hd
    exact List.mem_singleton.mp hd
  refine Ensures.weaken (R := Step P) ?_ fun _ hstep => h₁.trans hstep
  refine (loopScopeBody_ensures (w := [(x, .constant)]) h₁.sound (h.step h₁) (fun d hd hlocal => ?_)
    (fun _ ha => by cases ha) fun p hp => ?_).bind fun b s₂ h₂ ⟨hb, hparams⟩ => .pure (.refl h₂.sound) ?_
  · rw [hdecls d hd] at hlocal
    cases hlocal
  · cases hdecls _ hp
    exact ⟨_, List.mem_singleton_self _⟩
  · have h₁₂ := h₁.trans h₂
    refine hb.isStatement (l := .forEach x a b) ((h.step h₁₂).inner h₂.sound)
      (List.forall_mem_singleton.mpr (ha.step h₁₂)) (by rw [h₁₂.maxDepth_eq, h₁₂.frame]; exact hk)
      (List.forall_mem_singleton.mpr ⟨rfl, (hx.isSteady hs).mono h₁₂.toLeads⟩) hparams

/-- A call of a method of an iterator. -/
theorem stands_callMethod {ret : Ty} {name : String} (hname : name ∈ ["iterator", "hasNext", "next"])
    (ha : s.Stands noTargets k a) (hret : ret.Plain) :
    s.Stands noTargets (k + 1) (a.callMethod name ret) :=
  .quiet rfl (List.forall_mem_singleton.mpr (.inl hret)) (fun _ _ => trivial) (fun _ _ => .iteration hname)
    (List.forall_mem_singleton.mpr ha)

/-- **A loop with an iterator** that is declared around it. -/
theorem iterateFrom_ensures {v : VarDecl} (hs : s.Sound) (h : s.LoopScope P e ns n string) (hempty : s.decls ns = [])
    (hx : s.Untaken x) (hname : P.names x) (helem : elem.Plain) (hv : .var v ∈ s.decls s.frame.ns) (hfinal : v.isFinal)
    (hty : v.ty.Plain) :
    (do updateContext (·.addVar ns (.var ⟨x, elem, (Expr.var v.name v.ty).callMethod "next" elem, true, false⟩))
        let body ← genLoopBody e ns string none
        return .whileCond ((Expr.var v.name v.ty).callMethod "hasNext" s.language.booleanType) body
          !(← chance (·.loopShape)) : Gen Loop).Ensures (Step P) s fun l s' => s'.IsStatement (.loop l) := by
  set next : VarDecl := ⟨x, elem, (Expr.var v.name v.ty).callMethod "next" elem, true, false⟩ with hnext
  -- The iterator can be read wherever the scope is around.
  have hread : ∀ {s' : Session} {name : String} {ret : Ty}, s'.Sound → s.frame.ns ∈ s'.frame.ns.lineage →
      .var v ∈ s'.decls s.frame.ns → name ∈ ["iterator", "hasNext", "next"] → ret.Plain →
      s'.Stands noTargets 2 ((Expr.var v.name v.ty).callMethod name ret) := fun hs' hm hv' hname hret =>
    stands_callMethod hname (.var hs' hm hv' rfl (canRead_of_isFinal hfinal) hty) hret
  have hhere := Namespace.self_mem_lineage hs.rooted
  have hmethod : "next" ∈ ["iterator", "hasNext", "next"] := by decide
  have hnextDepth := (hread hs hhere hv hmethod helem).depth
  have hshapes : s.Shapes (.var next) := ShapesRoot.var
    ⟨hnextDepth.trans (two_le_initDepth.trans (initDepth_le_rootDepth (d := 0))), fun _ => rfl⟩ helem
  have hregisters := hx.registers (P := P) (d := .var next) rfl rfl nofun (fun _ hv => by cases hv; rfl) h.isLocal
    h.ne_here h.opened h.scopes h.making hname helem hshapes
  refine (addVar_step hs (.refl hs) rfl rfl hregisters).seq fun _ s₁ h₁ heq => ?_
  have hdecls : ∀ d ∈ s₁.decls ns, d = .var next := fun d hd => by
    rw [heq, declarations_of_push (fun _ => rfl), if_pos rfl, hempty] at hd
    exact List.mem_singleton.mp hd
  have hv₁ := h₁.var_mem hv
  refine Ensures.weaken (R := Step P) ?_ fun _ hstep => h₁.trans hstep
  refine (loopScopeBody_ensures (w := []) h₁.sound (h.step h₁) (fun d hd _ s₀ hloop _ hc hs₀ => ?_)
    (fun _ ha => by cases ha) fun p hp => by cases hdecls _ hp).bind fun b s₂ h₂ ⟨hb, hparams⟩ => ?_
  · rw [hdecls d hd]
    have hm : s.frame.ns ∈ s₀.frame.ns.lineage := by
      rw [hloop.ns, h₁.frame]
      exact Namespace.child_mem_lineage hhere
    have hstands := hread hs₀ hm (decls_of_context hc ▸ hv₁) hmethod helem
    exact Stands.declFits (hstands.deeper two_le_initDepth) hloop.place
  · refine (Ensures.chance.drawStep h₂.sound).bind fun shape s₃ h₃ _ => .pure (.refl h₃.sound) ?_
    have h₁₂ := h₁.trans h₂
    refine IsStatement.step (s := s₂) ?_ h₃
    refine hb.isStatement ((h.step h₁₂).inner h₂.sound) (k := 2) (List.forall_mem_singleton.mpr (hread h₂.sound
      (by rwa [h₁₂.frame]) (h₂.var_mem hv₁) (by decide) (s.language.plain_builtin (by decide)))) ?_ nofun hparams
    exact (Nat.add_le_add_right two_le_initDepth 2).trans initDepth_lt_bodyDepth

/-- **A loop with an iterator.** -/
theorem iterate_ensures (hs : s.Sound) (h : s.LoopScope P e ns n string) (hempty : s.decls ns = [])
    (hx : s.Untaken x) (hname : P.names x) (helem : elem.Plain) (ha : s.Stands noTargets k a)
    (hk : k + 1 ≤ initDepth s.maxDepth s.frame.depth) (hiterator : (s.language.iteratorOf elem).Plain) :
    (do let iterator ← word
        updateContext (·.addVar s.frame.ns (.var ⟨iterator, s.language.iteratorOf elem,
          a.callMethod "iterator" (s.language.iteratorOf elem), true, false⟩))
        updateContext (·.addVar ns (.var ⟨x, elem,
          (Expr.var iterator (s.language.iteratorOf elem)).callMethod "next" elem, true, false⟩))
        let body ← genLoopBody e ns string none
        return .whileCond ((Expr.var iterator (s.language.iteratorOf elem)).callMethod "hasNext" s.language.booleanType)
          body !(← chance (·.loopShape)) : Gen Loop).Ensures (Step P) s
      fun l s' => s'.IsStatement (.loop l) := by
  refine (word_step (P := .within s.frame.ns) hs).seq fun it s₁ _ ⟨hit, _⟩ => ?_
  set v : VarDecl := ⟨it, s.language.iteratorOf elem, a.callMethod "iterator" (s.language.iteratorOf elem), true, false⟩
    with hv
  have hregisters : Registers (.within s.frame.ns) s (s₁.withContext (s₁.context.push s.frame.ns (.var v))) s.frame.ns
      (.var v) :=
    registers_here (v := v) hs hit (.inr h.place) (.inr rfl) hiterator
      ((stands_callMethod (by decide) ha hiterator).deeper hk) (.inl rfl) fun _ => by rw [hit.context]
  refine (addVar_step hs hit.passes hit.context rfl hregisters).seq fun _ s₂ h₂ heq => ?_
  have hmem : .var v ∈ s₂.decls s₂.frame.ns := by
    rw [h₂.frame, heq, declarations_of_push (fun _ => rfl), if_pos rfl]
    exact List.mem_append_right _ (List.mem_singleton_self _)
  have hrest := iterateFrom_ensures (v := v) h₂.sound (h.step h₂) (h.empty hempty h₂) (hx.step h₂ id) hname helem hmem rfl
    hiterator
  rw [h₂.language] at hrest
  exact hrest.weaken fun _ => (h.relax h₂).trans

/-- **A loop over a collection.** -/
theorem genCollectionLoop_ensures (hs : s.Sound) (h : s.LoopScope P e ns n string) (hempty : s.decls ns = [])
    (hiterable : iterable.Plain) (helem : elem.Plain) (hiterator : (s.language.iteratorOf elem).Plain) :
    (genCollectionLoop e ns iterable elem string).Ensures (Step P) s fun l s' => s'.IsStatement (.loop l) := by
  unfold genCollectionLoop
  refine (nestedExpr_ensures hs h.exprs (.inl hiterable) (Permit.covers_within s.frame.ns)).seq fun a s₁ h₁ ha => ?_
  refine (word_step (P := .within s.frame.ns) h₁.sound).seq fun x s₂ h₂ ⟨hx, _⟩ => ?_
  refine (Ensures.chance.drawStep (P := .within s.frame.ns) h₂.sound).seq fun shape s₃ h₃ _ => ?_
  have h₁₃ := h₁.trans (h₂.trans h₃)
  have hscope := h.step h₁₃
  have hempty₃ := h.empty hempty h₁₃
  have hx₃ : s₃.Untaken x := (hx.untaken h₁.sound).step h₃ id
  have hname : P.names x := (h.step h₁).names x hx.unspent
  have ha₃ := (ha.value hiterable.isVoid).step (h₂.trans h₃)
  rw [h₁.maxDepth_eq] at ha₃
  have hmax := h₁₃.maxDepth_eq
  split
  · refine (forEach_ensures h₃.sound hscope hempty₃ hx₃ hname helem ha₃ ?_).weaken fun _ => (h.relax h₁₃).trans
    rw [hmax, h₁₃.frame]
    exact exprDepth_loop
  · refine .get ?_
    refine (iterate_ensures h₃.sound hscope hempty₃ hx₃ hname helem ha₃ ?_ ?_).weaken fun _ => (h.relax h₁₃).trans
    · rw [hmax, h₁₃.frame]
      exact exprDepth_iterator
    · rw [h₁₃.language]
      exact hiterator

/-! ## Counting -/

theorem stands_const (ht : t.Plain) (text : String) : s.Stands noTargets 1 (.const text t) :=
  .quiet rfl (List.forall_mem_singleton.mpr (.inl ht)) (fun _ _ => trivial) (fun _ _ => trivial) nofun

/-- **A loop over a range.** -/
theorem forRange_ensures (hs : s.Sound) (h : s.LoopScope P e ns n string) (hempty : s.decls ns = []) (ht : t.Plain)
    {stop : String} :
    (do let x ← word
        let body ← genLoopBody e ns string none
        return .forRange x (.const "0" t) (.const stop t) body : Gen Loop).Ensures (Step P) s
      fun l s' => s'.IsStatement (.loop l) := by
  refine (word_step (P := .within s.frame.ns) hs).seq fun x s₁ h₁ ⟨hx, _⟩ => ?_
  refine Ensures.weaken (R := Step P) ?_ fun _ => (h.relax h₁).trans
  refine (loopScopeBody_ensures (w := [(x, .constant)]) h₁.sound (h.step h₁) (fun d hd => ?_) (fun _ ha => by cases ha)
    fun p hp => ?_).bind fun b s₂ h₂ ⟨hb, hparams⟩ => .pure (.refl h₂.sound) ?_
  · rw [h.empty hempty h₁] at hd
    cases hd
  · rw [h.empty hempty h₁] at hp
    cases hp
  · refine hb.isStatement (l := .forRange x _ _ b) (((h.step h₁).step h₂).inner h₂.sound) (k := 1) ?_ ?_
      (List.forall_mem_singleton.mpr ⟨rfl, ((hx.untaken hs).isSteady h₁.sound).mono h₂.toLeads⟩) hparams
    · simpa [Loop.head] using ⟨stands_const ht _, stands_const ht _⟩
    · exact (Nat.add_le_add_right (Nat.le_of_succ_le two_le_initDepth) 2).trans initDepth_lt_bodyDepth

/-- **A loop with a counter** that is declared around it. -/
theorem countFrom_ensures (hs : s.Sound) (h : s.LoopScope P e ns n string) (hempty : s.decls ns = [])
    (hcounter : s.AssignableVar x) (ht : t.Plain) {boolean : Ty} (hboolean : boolean.Plain) :
    (do let limit ← integerText .i64 1 100
        let op := if ← coin then CmpOp.lt else .le
        let body ← genLoopBody e ns string (some (.step x .inc))
        return .whileCond (.comparison op (.var x t) (.const limit t) boolean) body (← coin) : Gen Loop).Ensures (Step P) s
      fun l s' => s'.IsStatement (.loop l) := by
  refine (integerText_ensures.drawStep (P := .within s.frame.ns) hs).seq fun limit s₁ h₁ _ => ?_
  refine (Ensures.coin.drawStep (P := .within s.frame.ns) h₁.sound).seq fun less s₂ h₂ _ => ?_
  have h₁₂ := h₁.trans h₂
  refine Ensures.weaken (R := Step P) ?_ fun _ => (h.relax h₁₂).trans
  refine (loopScopeBody_ensures (w := []) h₂.sound (h.step h₁₂) (fun d hd => ?_) (fun a ha => ?_)
    fun p hp => ?_).bind fun b s₃ h₃ ⟨hb, hparams⟩ => ?_
  · rw [h.empty hempty h₁₂] at hd
    cases hd
  · exact ⟨x, (Option.some.inj ha).symm, hcounter.step h₁₂⟩
  · rw [h.empty hempty h₁₂] at hp
    cases hp
  refine (Ensures.coin.drawStep h₃.sound).bind fun first s₄ h₄ _ => .pure (.refl h₄.sound) (IsStatement.step (s := s₃) ?_ h₄)
  refine hb.isStatement (((h.step h₁₂).step h₃).inner h₃.sound) (k := 2) (List.forall_mem_singleton.mpr ?_) ?_ nofun
    hparams
  · refine .quiet rfl (List.forall_mem_singleton.mpr (.inl hboolean)) (fun _ _ => trivial) (fun _ _ => trivial) ?_
    simpa [Expr.children] using ⟨((hcounter.step h₁₂).step h₃).stands h₃.sound ht, stands_const ht _⟩
  · exact (Nat.add_le_add_right two_le_initDepth 2).trans initDepth_lt_bodyDepth

/-- **A loop that counts.** -/
theorem genCountingLoop_ensures (hs : s.Sound) (h : s.LoopScope P e ns n string) (hempty : s.decls ns = []) :
    (genCountingLoop e ns string).Ensures (Step P) s fun l s' => s'.IsStatement (.loop l) := by
  unfold genCountingLoop
  have hint : s.language.integerType.Plain := s.language.plain_builtin (by decide)
  have hboolean : s.language.booleanType.Plain := s.language.plain_builtin (by decide)
  refine .get ((Ensures.chance.drawStep (P := .within s.frame.ns) hs).seq fun shape s₁ h₁ _ => ?_)
  split
  · refine (integerText_ensures.drawStep (P := .within s.frame.ns) h₁.sound).seq fun stop s₂ h₂ _ => ?_
    have h₁₂ := h₁.trans h₂
    exact (forRange_ensures h₂.sound (h.step h₁₂) (h.empty hempty h₁₂) hint).weaken fun _ => (h.relax h₁₂).trans
  · have hscope := h.step h₁
    refine (word_step (P := .within s.frame.ns) h₁.sound).seq fun x s₂ h₂ ⟨hx, _⟩ => ?_
    set v : VarDecl := ⟨x, s.language.integerType, .const "0" s.language.integerType, false, false⟩ with hv
    have hregisters : Registers (.within s.frame.ns) s₁ (s₂.withContext (s₂.context.push s₁.frame.ns (.var v)))
        s₁.frame.ns (.var v) :=
      registers_here (v := v) h₁.sound hx (.inr hscope.place) (.inr (by rw [h₁.frame]; rfl)) hint
        ((stands_const hint _).deeper (Nat.le_of_succ_le two_le_initDepth)) (.inl rfl) fun _ => by rw [hx.context]
    rw [← h₁.frame]
    refine (addVar_step h₁.sound hx.passes hx.context rfl hregisters).seq fun _ s₃ h₃ heq => ?_
    have h₁₃ := h₁.trans h₃
    have hmem : .var v ∈ s₃.decls s₃.frame.ns := by
      rw [h₃.frame, heq, declarations_of_push (fun _ => rfl), if_pos rfl]
      exact List.mem_append_right _ (List.mem_singleton_self _)
    have hcounter : s₃.AssignableVar x := h₃.sound.assignableVar_here (h.step h₁₃).place.body ⟨v, hmem, rfl, rfl⟩
    exact (countFrom_ensures h₃.sound (h.step h₁₃) (h.empty hempty h₁₃) hcounter hint hboolean).weaken
      fun _ => (h.relax h₁₃).trans

end Gen

/-! ## All loops -/

/-- A builtin class of one parameter holds values of any plain type, a collection those of a ground one. -/
theorem Language.HasClass.plain_apply {l : Language} {c : TypeCtor} (h : l.HasClass c) (hlength : c.params.length = 1)
    (ht : t.Plain) (hground : IsCollection c.name → t.isGround) : (c.apply [t]).Plain :=
  h.isPlain.applied (List.forall_mem_singleton.mpr ht) hlength.symm fun _ hname =>
    List.forall_mem_singleton.mpr (hground hname)

theorem Language.plain_iteratorOf (l : Language) (ht : t.Plain) : (l.iteratorOf t).Plain := by
  refine Language.HasClass.iterator.plain_apply rfl ht ?_
  rintro ⟨l', h | h⟩ <;> cases l <;> cases l' <;> exact absurd h (by decide)

namespace Session

/-- **What a loop can go through is plain.** -/
theorem Sound.plain_iterable (hs : s.Sound) (h : t ∈ s.iterableTypes) : t.Plain := by
  have hvalues : ∀ u ∈ s.language.valueTypes.filter fun t => !t.isConstructor, u.Plain ∧ u.isGround := by
    intro u hu
    obtain ⟨hu, hcon⟩ := List.mem_filter.mp hu
    rcases Language.mem_valueTypes_cases hu with ⟨k, hk, -, rfl⟩ | rfl
    · exact ⟨s.language.plain_builtin hk, s.language.isGround_builtin k⟩
    · cases hcon
  unfold iterableTypes at h
  extract_lets l classes values arrays at h
  simp only [List.mem_append, List.mem_map, List.mem_singleton] at h
  rcases h with (⟨u, hu, rfl⟩ | h) | rfl
  · have hu : u.Plain ∧ u.isGround := hu.elim (fun hu => by
      obtain ⟨c, hc, rfl⟩ := List.mem_map.mp hu
      obtain ⟨hc, hplain⟩ := List.mem_filter.mp hc
      simp only [Bool.and_eq_true, Bool.not_eq_true'] at hplain
      rw [show c.type = .simple c.name c.supertypes from if_pos (by simpa [ClassDecl.isGeneric] using hplain.1)]
      exact ⟨hs.plain_simple hc, rfl⟩) (hvalues u)
    exact Language.HasClass.arrayList.plain_apply rfl hu.1 fun _ => hu.2
  · have hmem : t ∈ values.map l.arrayOf := by
      have hl : l = s.language := rfl
      clear_value l
      cases l
      · exact h
      · simp [arrays] at h
    obtain ⟨u, hu, rfl⟩ := List.mem_map.mp hmem
    exact Language.HasClass.array.plain_apply rfl (hvalues u hu).1 fun _ => (hvalues u hu).2
  · exact s.language.plain_builtin (by decide)

end Session

namespace Gen

/-- **A loop over a collection, or one that counts.** -/
theorem loopOver_ensures {β : Type} {f : Loop → Gen β} {Q : β → Session → Prop} (hs : s.Sound)
    (h : s.LoopScope P e ns n string) (hempty : s.decls ns = []) (ht : t.Plain)
    (hf : ∀ l s', s.Step P s' → s'.IsStatement (.loop l) → (f l).Ensures (Step P) s' Q) :
    (match t.args with
      | elem :: _ => genCollectionLoop e ns t elem string >>= f
      | [] => genCountingLoop e ns string >>= f).Ensures (Step P) s Q := by
  split
  · rename_i elem rest hargs
    have helem : elem.Plain := ht.of_mem_args (hargs ▸ List.mem_cons_self)
    exact (genCollectionLoop_ensures hs h hempty ht helem (s.language.plain_iteratorOf helem)).bind hf
  · exact (genCountingLoop_ensures hs h hempty).bind hf

/-- The print of the length of a string. -/
theorem isStatement_print (hs : s.Sound) (hx : s.AssignableVar x) : s.IsStatement
    (.print (.stringLength (.var x s.language.stringType) s.language.integerType)) := by
  have hstands : s.Stands s.statements 3
      (.print (.stringLength (.var x s.language.stringType) s.language.integerType)) := by
    refine .quiet rfl nofun (fun _ _ => trivial) (fun _ _ => trivial) (List.forall_mem_singleton.mpr ?_)
    refine .quiet rfl (List.forall_mem_singleton.mpr (.inl (s.language.plain_builtin (by decide)))) (fun _ _ => trivial)
      (fun _ _ => trivial) (List.forall_mem_singleton.mpr ?_)
    exact (hx.stands hs (s.language.plain_builtin (by decide))).any
  have := two_le_initDepth (L := s.maxDepth) (d := s.frame.depth)
  exact ⟨hstands.fits, (Nat.add_le_add_right hstands.depth 1).trans
    ((Nat.add_le_add_right two_le_initDepth 2).trans initDepth_lt_bodyDepth)⟩

/-- **A loop, and the print of the string that it built.** -/
theorem genLoop_ensures (hs : s.Sound) (he : s.ServedExprs e 1) (hbody : s.frame.depth + 1 < s.maxDepth → s.Served e 1)
    (hplace : s.HasPlace) (hns : s.frame.ns ≠ .global) (hP : P.Covers s.frame.ns) :
    (genLoop e).Ensures (Step P) s fun sts s' => ∀ st ∈ sts, ∃ a, st = .expr a ∧ s'.IsStatement a := by
  unfold genLoop
  -- The loop counter makes the name of the scope new.
  have hname := newName_loop hs
  set n := "loop_" ++ toString (s.loopCount + 1) with hn
  set s₁ : Session := { s with loopCount := s.loopCount + 1 } with hs₁
  set ns := s.frame.ns.child n with hns'
  have hlower : startsUppercase n = false := startsUppercase_counted (by decide)
  have hunused : ¬s.Opened ns := not_opened_child hname.unspent
  refine Ensures.weaken (R := Step (P.func s s.frame.ns n)) ?_ fun _ hstep => hstep.relax (allows_func hunused)
  refine Ensures.seq (R := fun _ _ => True) (Q := fun _ s' => s' = s₁) (.modify (.of_context rfl) trivial rfl)
    fun _ _ _ heq => ?_
  rw [heq]
  refine .get ?_
  have h₁ : s.Step (.within s.frame.ns) s₁ := hname.step hs
  have hempty : s₁.decls ns = [] := congrArg Bindings.decls (by_contra fun hne => hunused (hs.opened ns hne))
  have hscope : s₁.LoopScope (P.func s s.frame.ns n) e ns n none :=
    { ns_eq := rfl
      opened := opened_child (opened_mono h₁.toLeads hs.here) hname.spent
      isLocal := ⟨Namespace.child_ne_global hs.rooted, Namespace.className?_child_of_lower hlower⟩
      isLoop := ⟨_, _, rfl⟩
      lower := hlower
      place := hplace.mono h₁.toLeads rfl
      ne_global := hns
      covers := hP.imp_right fun h => .inr ⟨rfl, h⟩
      scopes := .inl rfl
      making := .inl rfl
      names := fun x hx => .inl fun hspent => hx (h₁.spent x hspent)
      exprs := he.step h₁
      body := fun hlt => (hbody hlt).step h₁
      string := nofun }
  refine Ensures.weaken (R := Step (P.func s s.frame.ns n)) ?_ fun _ => (hname.step hs).trans
  refine (Ensures.pick.drawStep (P := .within s.frame.ns) h₁.sound).seq fun chosen s₂ h₂ ⟨_, _, hchosen⟩ => ?_
  extract_lets iterable jp
  have hiterable : iterable.Plain := by
    cases chosen with
    | none =>
      show (s₁.language.builtin .integer).Plain
      exact s₁.language.plain_builtin (by decide)
    | some t => exact h₁.sound.plain_iterable (hchosen t rfl)
  refine (Ensures.chance.drawStep (P := .within s.frame.ns) h₂.sound).seq fun concat s₃ h₃ _ => ?_
  have h₂₃ := h₂.trans h₃
  -- The loop is the same with and without a string to append to.
  have hjp : ∀ (string : Option String) (s₄ : Session), s₁.Step (.within s.frame.ns) s₄ →
      (∀ x ∈ string, s₄.AssignableVar x) → (jp string).Ensures (fun _ s' => s₁.Step (P.func s s.frame.ns n) s') s₄
        fun sts s' => ∀ st ∈ sts, ∃ a, st = .expr a ∧ s'.IsStatement a := by
    intro string s₄ h₄ hstring
    refine Ensures.weaken (R := Step (P.func s s.frame.ns n)) ?_ fun _ => (hscope.relax h₄).trans
    refine loopOver_ensures h₄.sound { hscope.step h₄ with string := hstring } (hscope.empty hempty h₄) hiterable
      fun l s₅ h₅ hl => .pure (.refl h₅.sound) (List.forall_mem_cons.mpr ⟨⟨_, rfl, hl⟩, ?_⟩)
    split
    · rename_i x
      refine List.forall_mem_singleton.mpr ⟨_, rfl, ?_⟩
      have hprint := isStatement_print h₅.sound ((hstring x rfl).step h₅)
      rwa [h₅.language, h₄.language] at hprint
    · nofun
  split
  · refine Ensures.seq (R := Step (.within s.frame.ns)) (Q := fun o s' => ∀ x ∈ o, s'.AssignableVar x) ?_
      fun string s₄ h₄ hstring => hjp string s₄ (h₂₃.trans h₄) hstring
    refine .map ((stringAccumulator_ensures h₃.sound (hscope.exprs.step h₂₃) (hscope.place.mono h₂₃.toLeads h₂₃.frame)
      (.inr (congrArg Frame.ns h₂₃.frame))).mono fun x s₄ _ hx y hy => Option.some.inj hy ▸ hx)
  · exact .pass (hjp none s₃ h₂₃ nofun)

end Gen

end ProgramGen

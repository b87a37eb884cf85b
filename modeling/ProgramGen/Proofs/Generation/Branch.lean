import ProgramGen.Proofs.Generation.Blocks
import ProgramGen.Synthesis.Branch

/-!
# Conditionals

The parts of a conditional on a boolean are operands. A branch of a test has a scope of its own, in
which the tested variable is bound once more; what the branch leaves there is its value, or in Kotlin
a block with the value at its end.
-/

namespace ProgramGen

open Session

variable {s s' s₁ : Session} {t : Ty} {e : Engine} {P : Permit} {a : Expr} {n : String} {v : VarDecl}
variable {shadowed : Option String}

namespace Gen

/-- **A conditional on a boolean.** -/
theorem genConditional_ensures (hs : s.Sound) (ht : t.Plain) (he : s.Served e 1)
    (hdepth : s.frame.depth ≤ 2 * s.maxDepth) (hP : P.Covers s.frame.ns) :
    (genConditional e t).Ensures (Step P) s fun a s' => s'.Answers s.frame.depth t a := by
  unfold genConditional
  refine .get (nested_ensures hs fun s₀ heq hs₀ => ?_)
  have he₀ : s₀.Served e 0 := by
    rw [heq]
    exact he.withFrame (by show _ ≤ s.frame.depth + 3 + 0; omega)
  have hframe : s₀.frame = { s.frame with depth := s.frame.depth + 3 } := by rw [heq]
  have hP₀ : P.Covers s₀.frame.ns := by rw [hframe]; exact hP
  have hmax : s₀.maxDepth = s.maxDepth := by rw [heq]
  have hboolean : s.language.booleanType.Plain := s.language.plain_builtin (by decide)
  -- Each branch is of a subtype of its own.
  have hbranch : ∀ s₁, s₀.Step P s₁ →
      (do let u ← narrow t
          e.expr u .exact).Ensures (Step P) s₁ fun a s' => ∃ u : Ty, u.Plain ∧ s'.Answers s₀.frame.depth u a := by
    intro s₁ h₁
    refine ((narrow_ensures h₁.sound ht).drawStep h₁.sound).bind fun u s₂ h₂ hu => ?_
    have hstep := h₁.trans h₂
    rw [← hstep.frame]
    exact ((he₀.step hstep).expr h₂.sound (.inl hu.2.plain) (hstep.frame ▸ hP₀)).mono fun _ _ _ ha => ⟨u, hu.2.plain, ha⟩
  have hpart : ∀ {u a s₃}, s₀.Step P s₃ → u.Plain → s₃.Answers s₀.frame.depth u a →
      ({ s₃ with frame := s.frame } : Session).Operand s.frame.depth t a := fun {u a s₃} h₃ hu ha =>
    (ha.of_nested (h₃.frame.trans hframe)).operand hu.isVoid
      (by rw [show ({ s₃ with frame := s.frame } : Session).maxDepth = s.maxDepth from
        (congrArg (·.limits.maxDepth) h₃.config).trans hmax]; exact hdepth)
      (by rw [hframe]; exact Nat.lt_add_of_pos_right (by decide))
  refine (he₀.expr hs₀ (.inl hboolean) hP₀).bind fun cond s₁ h₁ hcond => ?_
  have hjoin : ∀ {β : Type} (k : Expr → Gen β),
      (do let u ← narrow t
          let r ← e.expr u .exact
          k r) = (do let u ← narrow t
                     e.expr u .exact) >>= k := fun k => by rw [bind_assoc]
  rw [hjoin]
  refine (hbranch s₁ h₁).bind fun onTrue s₂ h₂ ⟨u, hu, htrue⟩ => ?_
  rw [hjoin]
  refine (hbranch s₂ (h₁.trans h₂)).bind fun onFalse s₃ h₃ ⟨w, hw, hfalse⟩ => .pure (.refl h₃.sound) ?_
  have h₁₃ : s₀.Step P s₃ := h₁.trans (h₂.trans h₃)
  refine .node ht.isVoid rfl ht rfl (List.forall_mem_singleton.mpr (.inl ht)) (fun _ _ => trivial)
    (fun _ _ => trivial) ?_
  simpa [Expr.children] using ⟨hpart h₁₃ hboolean (hcond.mono (h₂.trans h₃)), hpart h₁₃ hu (htrue.mono h₃),
    hpart h₁₃ hw hfalse⟩

end Gen

/-! ## Variables that are tested -/

theorem mem_findSubtypes_withSelf {classes : List ClassDecl} {builtins : List Ty} {concreteOnly : Bool} {u : Ty}
    (h : u ∈ findSubtypes t classes builtins false concreteOnly) :
    u ∈ findSubtypes t classes builtins true concreteOnly := by
  refine (List.mem_append.mp h).elim (fun h => List.mem_append_left _ ?_) fun h => List.mem_append_right _ ?_
  · obtain ⟨c, hc, hu⟩ := List.mem_filterMap.mp h
    refine List.mem_filterMap.mpr ⟨c, hc, ?_⟩
    obtain ⟨hnot, hu⟩ := Option.ite_none_left_eq_some.mp hu
    rw [if_neg (by simp_all)]
    exact hu
  · obtain ⟨hu, hb⟩ := List.mem_filter.mp h
    exact List.mem_filter.mpr ⟨hu, by simp_all⟩

namespace Session

/-- A tested variable is final and can be read, and the type that it is tested for is plain. -/
theorem Sound.of_testableVars (hs : s.Sound) {u : Ty} (h : (n, u) ∈ s.testableVars) : u.Plain ∧
    ∃ m ∈ s.frame.ns.lineage, ∃ v : VarDecl, v.name = n ∧ .var v ∈ s.decls m ∧ s.canRead m (.var v) ∧ v.isFinal := by
  obtain ⟨d, hd, h⟩ := List.mem_flatMap.mp h
  split at h
  · rename_i v
    split at h
    · cases h
    rename_i hnot
    simp only [Bool.or_eq_true, Bool.not_eq_true', not_or, Bool.not_eq_false] at hnot
    obtain ⟨w, hw, heq⟩ := List.mem_map.mp h
    obtain ⟨rfl, rfl⟩ := Prod.mk.inj heq
    obtain ⟨hw, htestable⟩ := List.mem_filter.mp hw
    obtain ⟨m, hm, hd', -, hread⟩ := Sound.exists_of_mem_readableVars hd
    refine ⟨?_, m, hm, v, rfl, hd', hread, hnot.1.1⟩
    rcases hs.narrows_of_mem (hs.plain_varType hd' rfl) (mem_findSubtypes_withSelf hw) with ⟨c, -, rfl⟩ | h
    · cases htestable
    · exact h.plain
  · cases h

/-- **A final variable is bound once more** in a scope inside, to be read as what it is. -/
theorem shadow_step {ns m : Namespace} {v₀ : VarDecl} (hs : s.Sound) (hv₀ : .var v₀ ∈ s.decls m) (hfinal₀ : v₀.isFinal)
    (hname : v₀.name = v.name) (hfinal : v.isFinal) (hty : v.ty.Plain) (hinit : v.init = .var v.name v.ty)
    (hns : ns.IsLocal) (hopened : s.Opened ns) (hempty : s.context.scope ns = .empty) (hother : ns ≠ s.frame.ns)
    (hP : P.scopes ns) : s.Step P (s.withContext (s.context.push ns (.var v))) := by
  have hdecls : s.decls ns = [] := congrArg Bindings.decls hempty
  have hspent : s.Spent v.name := hname ▸ hs.spent_name hv₀
  have hregisters : Registers P s (s.withContext (s.context.push ns (.var v))) ns (.var v) :=
    { scopes := fun _ => rfl
      kind := nofun
      member := fun h => absurd hns.className?_eq h
      field := nofun
      welcome :=
        { keys := fun d hd => by
            rw [hdecls] at hd
            cases hd
          unique := fun m' d hd hd' => by
            rcases hs.eq_or_agrees hd hv₀ (hd'.trans hname.symm) with ⟨-, rfl⟩ | hagrees
            · exact ⟨hfinal₀, hfinal⟩
            · cases d <;> first | exact hagrees.elim | exact ⟨hagrees.1, hfinal⟩
          params := fun m' f hf p hp heq => by
            obtain ⟨q, hq⟩ := hs.params m' f hf p hp m _ hv₀ (hname.trans heq.symm)
            cases hq
          ownParams := nofun
          types := hty }
      opened := fun x hx => spent_withContext.mpr (hopened x hx)
      spent := fun x hx => by
        rw [List.mem_singleton.mp hx]
        exact spent_withContext.mpr hspent
      permitted := .inr (.inl hP)
      taken := fun x hx _ => by
        rw [List.mem_singleton.mp hx, show (Decl.var v).name = v.name from rfl, ← hname]
        exact .inl ⟨m, _, hv₀, Sound.name_mem_names _⟩
      mutables := fun w hw hchanges => by
        cases hw
        rw [hfinal] at hchanges
        cases hchanges
      params := nofun
      top := fun h => absurd h hns.ne_global
      shapes := by
        refine ShapesRoot.var ⟨?_, fun _ => ?_⟩ hty
        · rw [hinit]
          exact Nat.succ_pos _
        · rw [hinit]
          rfl
      here := fun h => absurd h hother }
  exact hregisters.step hs (.withContext hs _)

end Session

/-! ## Branches -/

/-- What the branches of a conditional add to: their own scopes. -/
def Permit.branches (a b : Namespace) : Permit :=
  ⟨fun m => m = a ∨ m = b, fun _ => False, fun _ => False⟩

/-- The frame in a branch. -/
def Frame.enterBranch (f : Frame) (ns : Namespace) : Frame := { f.enter ns with inValueBranch := true }

namespace Session

/-- What a branch leaves: a value, at most as deep as a block of the branch. It has the local variables of the
branch in it. -/
def BranchFits (s : Session) (T : Demand) (d : Nat) (a : Expr) : Prop := s.Stands T (initDepth s.maxDepth d + 1) a

theorem BranchFits.step {T : Demand} {d : Nat} (h : s.BranchFits T d a) (hstep : s.Step P s') :
    s'.BranchFits T d a := by
  unfold BranchFits
  rw [hstep.maxDepth_eq]
  exact Stands.mono h hstep.toLeads hstep.frame (.refl _)

end Session

namespace Gen

/-- **A branch is a value, or a block of what was declared for it.** In Java nothing is. -/
theorem genBranch_ensures (hs : s.Sound) (ht : t.Plain) (he : s.Served e 0) (hlocal : s.frame.ns.IsLocal)
    (hbranch : s.frame.inValueBranch) (hshadowed : ∀ d ∈ s.localDecls, some d.name = shadowed)
    (hseen : ∀ n ∈ shadowed, s.InSight s.frame.ns False n) (hP : P.Covers s.frame.ns) :
    (genBranch e t shadowed).Ensures (Step P) s fun a s' => s'.BranchFits noLocals s'.frame.depth a := by
  unfold genBranch
  refine (he.expr hs (.inl ht) hP).bind fun value s₁ h₁ hvalue => .get ?_
  have hvalue := hvalue.value ht.isVoid
  rw [← h₁.frame] at hvalue hlocal hbranch
  have hdepth : value.depth ≤ initDepth s₁.maxDepth s₁.frame.depth := hvalue.depth.trans exprDepth_le_initDepth.2
  extract_lets decls
  have hdecls : ∀ d ∈ decls, d ∈ s₁.localDecls ∧ s₁.DeclFits d := by
    intro d hd
    obtain ⟨hd, hname⟩ := List.mem_filter.mp hd
    refine ⟨hd, (h₁.locals (h₁.frame ▸ hlocal) d hd).resolve_left fun hd => ?_⟩
    simp [hshadowed d hd] at hname
  -- What the branch declares is collected, but for the variable that stands around it, too.
  have hcollects : ∀ b : Block, (∀ d ∈ decls, Stmt.decl d ∈ b.stmts) → s₁.Collects b := fun b hb x hx => by
    by_cases hname : some x.name = shadowed
    · exact .inr (.inl (h₁.inSight _ _ _ (h₁.frame ▸ hseen _ hname.symm)))
    · exact .inl (hb _ (List.mem_filter.mpr ⟨mem_localDecls.mpr ⟨hx, rfl⟩, bne_iff_ne.mpr hname⟩))
  split
  · rename_i hnone
    have hbare : s₁.FitsHere noLocals value := FitsHere.bare hvalue.fits h₁.sound hlocal.className?_eq
      (hcollects _ fun d hd => by rw [List.isEmpty_iff.mp hnone] at hd; cases hd)
    exact .pure (.refl h₁.sound) ⟨hbare, hdepth.trans (Nat.le_succ _), hvalue.value⟩
  rename_i hsome
  have hmem : ∀ d, Stmt.decl d ∈ decls.map Stmt.decl ++ [.expr value] → d ∈ decls := fun d hd => by
    rcases List.mem_append.mp hd with hd | hd
    · obtain ⟨_, hd', heq⟩ := List.mem_map.mp hd
      exact Stmt.decl.inj heq ▸ hd'
    · cases List.mem_singleton.mp hd
  have hexpr : ∀ a, Stmt.expr a ∈ decls.map Stmt.decl ++ [.expr value] → a = value := fun a ha => by
    rcases List.mem_append.mp ha with ha | ha
    · obtain ⟨_, -, heq⟩ := List.mem_map.mp ha
      cases heq
    · exact Stmt.expr.inj (List.mem_singleton.mp ha)
  refine .pure (.refl h₁.sound) ⟨?_, ?_, fun hl => ?_⟩
  · exact h₁.sound.fitsHere_block hlocal (fun d hd => hdecls d (hmem d hd))
      (fun a ha => hexpr a ha ▸ hvalue.fits)
      (hcollects _ fun d hd => List.mem_append_left _ (List.mem_map_of_mem hd)) fun _ => False.elim
  · exact Block.depth_le (fun v hv => (hdecls _ (hmem _ hv)).2.depth v rfl) fun a ha => hexpr a ha ▸ hdepth
  · obtain ⟨d, rest, heq⟩ := List.exists_cons_of_ne_nil fun h => hsome (List.isEmpty_iff.mpr h)
    have hplace := (hdecls d (heq ▸ List.mem_cons_self)).2.place.branch hl
    rw [hbranch] at hplace
    cases hplace

/-- **A branch is entered and left.** -/
theorem inBranch_ensures {x : Gen Expr} {ns : Namespace} (hs : s.Sound) (hns : ns = s.frame.ns.child n)
    (hspent : s.Spent n) (hlower : startsUppercase n = false) (hempty : s.context.scope ns = .empty)
    (h : ∀ s₀, s₀ = { s with frame := s.frame.enterBranch ns } → s.CanEnter (s.frame.enterBranch ns) → s₀.Sound →
      x.Ensures (Step (.within ns)) s₀ fun a s' => s'.BranchFits noLocals s'.frame.depth a) :
    (inBranch ns x).Ensures (Step (.within ns)) s fun a s' => s'.BranchFits noTargets (s.frame.depth + 1) a := by
  subst hns
  have henter : s.CanEnter (s.frame.enterBranch (s.frame.ns.child n)) :=
    { rooted := Namespace.head?_child hs.rooted
      opened := opened_child hs.here hspent
      body := fun hbody => ⟨Namespace.className?_child_of_lower hlower, fun r hr =>
        Namespace.child_isWithin ((hs.body hbody).2 r hr)⟩
      root := fun h => (h.elim (Namespace.child_ne_global hs.rooted)
        (· (Namespace.className?_child_of_lower hlower))).elim }
  refine .inOtherScope hs henter (allows_refl _ _)
    (fun _ h => Namespace.ne_child (Namespace.isWithin_refl _) h) fun s₀ heq hs₀ => ?_
  refine (h s₀ heq henter hs₀).mono fun a s' hstep ha => ⟨?_, ?_, ha.value⟩
  · have hfits : s'.Fits (s.frame.ns.child n) s.frame.captureRoot noLocals fun v => [(v, a)] := by
      have hfits := ha.fits
      unfold FitsHere at hfits
      rw [hstep.frame, heq] at hfits
      exact hfits
    have hparams : s'.ParamsAre (s.frame.ns.child n) [] := fun p hp => by
      have hmem := hstep.params _ (by subst heq; exact hs₀.here) nofun p hp
      rw [heq, show decls _ (s.frame.ns.child n) = [] from congrArg Bindings.decls hempty] at hmem
      cases hmem
    exact fits_withFrame.mpr (hfits.of_child ⟨hs.rooted, .inr hlower⟩ hparams)
  · have hdepth := ha.depth
    rw [hstep.frame, heq] at hdepth
    exact hdepth

/-- **A variable is bound once more for a branch**, and forgotten at its end. -/
theorem withShadow_ensures {x : Gen Expr} {f : Frame} (henter : s.CanEnter f)
    (hstep : s.Step P (s.withContext (s.context.push f.ns (.var v)))) (hns : f.ns.IsLocal)
    (hempty : s.context.scope f.ns = .empty) (hfinal : v.isFinal) (hloop : ¬f.ns.IsLoop)
    (hshadows : ({ s with frame := f } : Session).Shadows v.name) (hP : P.scopes f.ns)
    (h : ∀ s₀, s₀ = ({ s with frame := f } : Session).withContext (s.context.push f.ns (.var v)) → s₀.Sound →
      (∀ d ∈ s₀.localDecls, d = .var v) → x.Ensures (Step P) s₀ fun a s' => s'.BranchFits noLocals s'.frame.depth a) :
    (withShadow f.ns (.var v) x).Ensures (Step P) { s with frame := f }
      fun a s' => s'.BranchFits noLocals s'.frame.depth a := by
  have hdecls : s.decls f.ns = [] := congrArg Bindings.decls hempty
  refine .withShadow hns.ne_global hns.className?_eq (Context.addVar_eq_push rfl fun d hd => ?_) ?_
  · rw [show s.context.declarations f.ns = [] from hdecls] at hd
    cases hd
  · have hsound : (({ s with frame := f } : Session).withContext (s.context.push f.ns (.var v))).Sound :=
      hstep.sound.withFrame (f := f)
        ⟨henter.rooted, fun x hx => hstep.spent x (henter.opened x hx), henter.body, henter.root⟩
    refine (h _ rfl hsound fun d hd => ?_).imp fun a s₂ h₂ ha => ?_
    · have hd : d ∈ (s.context.push f.ns (.var v)).declarations f.ns := (mem_localDecls.mp hd).1
      rw [Context.declarations_push, if_pos rfl, show s.context.declarations f.ns = [] from hdecls] at hd
      exact List.mem_singleton.mp hd
    obtain ⟨hremoved, hleads⟩ := Step.removeShadow (s := { s with frame := f }) hdecls hns.ne_global hloop hshadows
      hns.className?_eq hP (fun _ => rfl) hfinal (hstep.toExtends.enterFrame f) h₂
    exact ⟨hremoved, Stands.mono ha hleads rfl (.refl _)⟩

section Branches

variable {ns : Namespace} (hs : s.Sound) (ht : t.Plain) (he : s.Served e 1) (hns : ns = s.frame.ns.child n)
variable (hspent : s.Spent n) (hlower : startsUppercase n = false) (hempty : s.context.scope ns = .empty)
include hs ht he hns hspent hlower hempty

/-- The branch in which the variable is of the type that it was tested for. -/
theorem onTrue_ensures {m : Namespace} {v₀ : VarDecl} {u : Ty} (hm : m ∈ s.frame.ns.lineage) (hv₀ : .var v₀ ∈ s.decls m)
    (hfinal₀ : v₀.isFinal) (hu : u.Plain) (hloop : ¬ns.IsLoop) :
    (inBranch ns (withShadow ns (.var ⟨v₀.name, u, .var v₀.name u, true, false⟩)
      (genBranch e t (some v₀.name)))).Ensures (Step (.within ns)) s
      fun a s' => s'.BranchFits noTargets (s.frame.depth + 1) a := by
  have hlocal : ns.IsLocal := hns ▸ ⟨Namespace.child_ne_global hs.rooted, Namespace.className?_child_of_lower hlower⟩
  have hshadows : ({ s with frame := s.frame.enterBranch ns } : Session).Shadows v₀.name := by
    subst hns
    exact ⟨m, Namespace.child_mem_lineage hm, Namespace.ne_child (Namespace.mem_lineage.mp hm).1, _, hv₀, rfl, rfl⟩
  refine inBranch_ensures hs hns hspent hlower hempty fun s₀ heq henter hs₀ => ?_
  have hshadow : s.Step (.within ns) (s.withContext (s.context.push ns (.var ⟨v₀.name, u, .var v₀.name u, true, false⟩))) :=
    shadow_step hs hv₀ hfinal₀ rfl rfl hu rfl hlocal henter.opened hempty
      (hns ▸ Ne.symm (Namespace.ne_child (Namespace.isWithin_refl _))) rfl
  subst heq
  refine withShadow_ensures henter hshadow hlocal hempty rfl hloop hshadows rfl fun s₀ heq hs₀ hdecls => ?_
  subst heq
  refine genBranch_ensures hs₀ ht (Served.withFrame (s := s) he le_rfl) hlocal rfl (fun d hd => hdecls d hd ▸ rfl)
    (fun x hx => ?_) (.inr rfl)
  cases hx
  obtain ⟨m, hm, hne, d, hd, hkind, hname⟩ := hshadows
  exact hshadow.inSight _ _ _ ⟨m, hm, d, hd, hkind, hname, fun heq => absurd heq hne⟩

/-- The other branch. -/
theorem onFalse_ensures :
    (inBranch ns (genBranch e t none)).Ensures (Step (.within ns)) s
      fun a s' => s'.BranchFits noTargets (s.frame.depth + 1) a := by
  have hlocal : ns.IsLocal := hns ▸ ⟨Namespace.child_ne_global hs.rooted, Namespace.className?_child_of_lower hlower⟩
  refine inBranch_ensures hs hns hspent hlower hempty fun s₀ heq henter hs₀ => ?_
  subst heq
  refine genBranch_ensures hs₀ ht (Served.withFrame he le_rfl) hlocal rfl (fun d hd => ?_) nofun (.inr rfl)
  have hd : d ∈ s.decls ns := (mem_localDecls.mp hd).1
  rw [show s.decls ns = [] from congrArg Bindings.decls hempty] at hd
  cases hd

end Branches

/-- **A conditional on the type of a variable**; where none can be tested, a leaf. -/
theorem genTypeTest_ensures (hs : s.Sound) (ht : t.Plain) (he : s.Served e 1)
    (hdepth : s.frame.depth ≤ 2 * s.maxDepth)
    (hleaf : ∀ s₁, s.Step P s₁ → (e.expr t .leaves).Ensures (Step P) s₁ fun a s' => s'.Answers s.frame.depth t a) :
    (genTypeTest e t).Ensures (Step P) s fun a s' => s'.Answers s.frame.depth t a := by
  unfold genTypeTest
  refine .get ((Ensures.pick.drawStep hs).bind fun chosen s₁ h₁ hpick => ?_)
  split
  · exact hleaf s₁ h₁
  rename_i var u
  obtain ⟨⟨stream, rfl⟩, -, hchosen⟩ := hpick
  obtain ⟨hu, m, hm, v₀, rfl, hv₀, hread, hfinal₀⟩ := Sound.of_testableVars hs (hchosen _ rfl)
  generalize hs₁ : s.atStream stream = s₁ at h₁
  have hm₁ : m ∈ s₁.frame.ns.lineage := hs₁ ▸ hm
  have hv₁ : .var v₀ ∈ s₁.decls m := hs₁ ▸ hv₀
  have hread₁ : s₁.canRead m (.var v₀) := hs₁ ▸ hread
  have hdepth₁ := h₁.depth_le hdepth
  rw [← h₁.frame]
  -- One count names both scopes; neither is in use.
  obtain ⟨s₂, hs₂⟩ : ∃ s₂ : Session, s₂ = { s₁ with branchCount := s₁.branchCount + 1 } := ⟨_, rfl⟩
  have htrue : s₁.NewName ("true_block_" ++ toString (s₁.branchCount + 1)) s₂ := hs₂ ▸ newName_branch h₁.sound (.inl rfl)
  have hfalse : s₁.NewName ("false_block_" ++ toString (s₁.branchCount + 1)) s₂ := hs₂ ▸ newName_branch h₁.sound (.inr rfl)
  have hcount : s₂.branchCount = s₁.branchCount + 1 := by rw [hs₂]
  rw [← hcount] at htrue hfalse
  set trueName := "true_block_" ++ toString s₂.branchCount with htrueName
  set falseName := "false_block_" ++ toString s₂.branchCount with hfalseName
  have hlowerTrue : startsUppercase trueName = false := startsUppercase_counted (by decide)
  have hlowerFalse : startsUppercase falseName = false := startsUppercase_counted (by decide)
  have hne : s₂.frame.ns.child falseName ≠ s₂.frame.ns.child trueName := fun heq => by
    have := congrArg (·.toList.head?) (Namespace.child_injective heq).2
    simp [htrueName, hfalseName] at this
  have hempty : ∀ {n}, ¬s₁.Spent n → ∀ ns : Namespace, s₂.context.scope (ns.child n) = .empty := fun hn ns => by
    rw [htrue.context]
    exact by_contra fun hne => not_opened_child hn (h₁.sound.opened _ hne)
  set Q := Permit.branches (s₂.frame.ns.child trueName) (s₂.frame.ns.child falseName) with hQ
  have hrelax : ∀ ns : Namespace, Q.scopes ns → ∀ r : Session, r.Allows (.within ns) Q := fun ns hns r =>
    ⟨fun m _ _ (hm : m = ns) => hm ▸ hns, fun _ _ h => h.elim, fun _ _ h => h.elim⟩
  have hallows : s₁.Allows Q P :=
    ⟨fun m hm _ h => (h.elim (fun h => not_opened_child htrue.unspent (h ▸ hm))
      fun h => not_opened_child hfalse.unspent (h ▸ hm)).elim, fun _ _ h => h.elim, fun _ _ h => h.elim⟩
  refine Ensures.weaken (R := Step Q) ?_ fun _ hstep => hstep.relax hallows
  have hm₂ : m ∈ s₂.frame.ns.lineage := hs₂ ▸ hm₁
  have hloop : ¬(s₂.frame.ns.child trueName).IsLoop := fun ⟨_, k, heq⟩ => by
    have := congrArg (·.toList.head?) (Namespace.child_injective heq).2
    simp [htrueName] at this
  have h₂ : s₁.Step Q s₂ := htrue.step h₁.sound
  have he₂ : s₂.Served e 1 := (he.step h₁).step h₂
  refine Ensures.bind (Q := fun _ s' => s' = s₂) (.modify (.of_context rfl) (hs₂ ▸ h₂) hs₂.symm) fun _ s' _ heq => ?_
  subst s'
  refine .get ?_
  refine ((onTrue_ensures (n := trueName) h₂.sound ht he₂ rfl htrue.spent hlowerTrue (hempty htrue.unspent _)
    hm₂ (by rw [hs₂]; exact hv₁) hfinal₀ hu hloop).imp (T := Step Q)
      (U := fun a r => r.BranchFits noTargets (s₂.frame.depth + 1) a ∧
        r.context.scope (s₂.frame.ns.child falseName) = .empty)
    fun a r hstep ha => ⟨hstep.relax (hrelax _ (.inl rfl) _), ha, ?_⟩).bind fun onTrue s₃ h₃ ⟨honTrue, hempty₃⟩ => ?_
  · exact (hstep.same _ (opened_child h₂.sound.here hfalse.spent) (Namespace.child_ne_global h₂.sound.rooted) hne).trans
      (hempty hfalse.unspent _)
  refine ((onFalse_ensures (n := falseName) h₃.sound ht (he₂.step h₃) (by rw [h₃.frame]) (h₃.spent _ hfalse.spent)
    hlowerFalse hempty₃).weaken fun _ h => h.relax (hrelax _ (.inr rfl) _)).bind fun onFalse s₄ h₄ honFalse => ?_
  rw [h₃.frame] at honFalse
  have htest : s₂.Stands noTargets 1 (.instanceOf v₀.name u s₂.language.booleanType) := by
    have hread₂ : s₂.canRead m (.var v₀) := hs₂ ▸ hread₁
    refine .of_children rfl ?_ (fun s' hl v hv => ?_) (fun _ _ => trivial) nofun fun _ _ _ hv =>
      hv _ (inSight_of_mem (d := .var v₀) hm₂ (by rw [hs₂]; exact hv₁) rfl)
    · simpa [Expr.types] using ⟨.inl hu, .inl (s₂.language.plain_builtin (by decide))⟩
    · exact Sound.access_ne_outer (d := .var v₀) h₂.sound (by rw [hs₂]; exact hv₁) hread₂ hl hv
  have hchildren : ∀ b ∈ [.instanceOf v₀.name u s₂.language.booleanType, onTrue, onFalse],
      s₄.Stands noTargets (initDepth s₄.maxDepth (s₂.frame.depth + 1) + 1) b := by
    simpa using ⟨((htest.step h₃).step h₄).deeper (Nat.succ_pos _), honTrue.step h₄, honFalse⟩
  refine .pure (.refl h₄.sound) (.of_value (Stands.deeper (k := initDepth s₄.maxDepth (s₂.frame.depth + 1) + 1 + 1) ?_ ?_)
    rfl ht ht.isVoid)
  · exact .quiet rfl (List.forall_mem_singleton.mpr (.inl ht)) (fun _ _ => trivial) (fun _ _ => trivial) hchildren
  · rw [h₂.frame]
    exact initDepth_below (((h₂.trans h₃).trans h₄).maxDepth_eq ▸ hdepth₁) (Nat.lt_succ_self _)

end Gen

end ProgramGen

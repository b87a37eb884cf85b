import ProgramGen.Proofs.Generation.Blocks
import ProgramGen.Proofs.Generation.Member
import ProgramGen.Synthesis.Loop

/-!
# Bodies of loops

The body of a loop has a scope of its own. Its statements are those of a body, or where the program is
as deep as it may get, what the scope declares and a simple call; statements that append to a string
and count come after them. None of these assigns a variable of the scope itself.
-/

namespace ProgramGen

open Session

variable {s s' s₀ s₁ : Session} {t : Ty} {e : Engine} {P : Permit} {a : Expr} {n x : String} {k : Nat}
variable {b : Block} {T : Demand} {ns m : Namespace} {stmts : List Stmt} {es : List Expr} {d : Decl}

/-! ## Statements -/

theorem Block.locals_append_exprs {flag : Bool} :
    Block.locals ⟨stmts ++ es.map Stmt.expr, flag⟩ = Block.locals ⟨stmts, flag⟩ := by
  unfold Block.locals
  rw [List.filterMap_append, List.filterMap_map]
  simp

/-- Expressions at the end of a block see what the block declares. -/
theorem Block.places_append_exprs {flag : Bool} (v : Visibility) :
    Block.places v ⟨stmts ++ es.map Stmt.expr, flag⟩ =
      Block.places v ⟨stmts, flag⟩ ++ es.map (Block.locals ⟨stmts, flag⟩ ++ v, ·) := by
  unfold Block.places
  rw [Block.locals_append_exprs, List.flatMap_append, List.flatMap_map]
  exact congrArg _ List.map_eq_flatMap.symm

namespace Session

theorem Extends.var_mem {v : VarDecl} (h : s.Extends P s') (hv : .var v ∈ s.decls ns) : .var v ∈ s'.decls ns := by
  obtain ⟨d, hd, heq⟩ := List.mem_map.mp ((h.decls ns).subset (List.mem_map_of_mem hv))
  exact Decl.eq_of_outline_var heq.symm rfl ▸ hd

/-- The parts of what fits fit. -/
theorem FitsHere.parts (h : s.FitsHere T a) : s.Fits s.frame.ns s.frame.captureRoot T a.places := by
  intro s' hl v hv hsight y hy
  obtain ⟨-, -, -, -, hparts⟩ := h s' hl v hv hsight _ (List.mem_singleton_self _)
  exact hparts y hy

/-- In the body of a loop all variables are seen, as what the body of a loop declares. -/
theorem collects_of_isLoop (h : s.frame.ns.IsLoop) (b : Block) : s.Collects b := fun x hx =>
  .inr (.inr ⟨_, h, x, hx, rfl⟩)

/-- Statements for the body of a loop, at most `k` deep, that assign no variables of its scope but those
that they declare. -/
structure StmtsFit (s : Session) (k : Nat) (stmts : List Stmt) : Prop where
  places : ∀ flag, s.Fits s.frame.ns s.frame.captureRoot s.bodies (Block.places · ⟨stmts, flag⟩)
  locals : ∀ x : VarDecl, Stmt.decl (.var x) ∈ stmts → .var x ∈ s.decls s.frame.ns
  decls : ∀ d, Stmt.decl d ∈ stmts → s.Shapes d ∧ d.IsWhole
  depth : ∀ a st, st ∈ stmts → st.expr? = some a → a.depth ≤ k

namespace StmtsFit

theorem nil : s.StmtsFit k [] := ⟨fun _ => .nil, nofun, nofun, nofun⟩

theorem step (h : s.StmtsFit k stmts) (hstep : s.Step P s') : s'.StmtsFit k stmts where
  places flag := by
    rw [hstep.frame]
    exact (h.places flag).mono hstep.toLeads (bodies_mono hstep.toLeads hstep.frame)
  locals v hv := by
    rw [hstep.frame]
    exact hstep.var_mem (h.locals v hv)
  decls d hd := (h.decls d hd).imp_left hstep.shapes
  depth := h.depth

theorem deeper {j : Nat} (h : s.StmtsFit k stmts) (hk : k ≤ j) : s.StmtsFit j stmts :=
  ⟨h.places, h.locals, h.decls, fun a st hst ha => (h.depth a st hst ha).trans hk⟩

/-- More expressions at the end. What they read may be declared in none of the statements. -/
theorem append (h : s.StmtsFit k stmts) (hs : s.Sound) (hlocal : s.frame.ns.IsLocal) (hloop : s.frame.ns.IsLoop)
    (hes : ∀ a ∈ es, s.FitsHere s.endings a ∧ a.depth ≤ k) : s.StmtsFit k (stmts ++ es.map Stmt.expr) where
  places flag := by
    have hglobal : s.frame.ns.isGlobal = false := by
      rw [← Bool.not_eq_true, Namespace.isGlobal_iff hs.rooted]
      exact hlocal.ne_global
    have hexprs : s.Fits s.frame.ns s.frame.captureRoot s.bodies fun v => es.map (Block.locals ⟨stmts, flag⟩ ++ v, ·) :=
      (Fits.exprs fun a ha => (hes a ha).1).within (g := (Block.locals ⟨stmts, flag⟩ ++ ·))
        (fun s' hl v hv => hs.admits_locals hglobal h.locals hl hv fun _ => .inl)
        fun s' hl v hv => (collects_of_isLoop hloop _).shows hs hlocal.className?_eq hl hv
    have hall := (h.places flag).append hexprs
    simp only [← Block.places_append_exprs] at hall
    exact hall
  locals v hv := by
    rcases List.mem_append.mp hv with hv | hv
    · exact h.locals v hv
    · obtain ⟨_, -, heq⟩ := List.mem_map.mp hv
      cases heq
  decls d hd := by
    rcases List.mem_append.mp hd with hd | hd
    · exact h.decls d hd
    · obtain ⟨_, -, heq⟩ := List.mem_map.mp hd
      cases heq
  depth a st hst ha := by
    rcases List.mem_append.mp hst with hst | hst
    · exact h.depth a st hst ha
    · obtain ⟨b, hb, rfl⟩ := List.mem_map.mp hst
      cases ha
      exact (hes _ hb).2

end StmtsFit

/-- The statements of a body. -/
theorem BodyFits.stmtsFit (h : s.BodyFits t (.block b)) (hs : s.Sound) (ht : t.isVoid) :
    s.StmtsFit (bodyDepth s.maxDepth s.frame.depth) b.stmts where
  places flag := h.fits.parts
  locals x hx := List.mem_of_mem_filter (h.decls ht b rfl _ hx).1
  decls d hd := by
    obtain ⟨hmem, hfits⟩ := h.decls ht b rfl d hd
    exact hs.shaped_local hmem hfits
  depth a st hst ha := by
    have hmem : a ∈ (Expr.block b).children := List.mem_filterMap.mpr ⟨st, hst, ha⟩
    have hdepth := h.depth
    have := Expr.le_maxDepth hmem
    rw [Expr.depth_eq] at hdepth
    omega

/-- What is declared in the current scope, and a few expressions. -/
theorem Sound.stmtsFit_localDecls (hs : s.Sound) (hlocal : s.frame.ns.IsLocal) (hloop : s.frame.ns.IsLoop)
    (hdecls : ∀ d ∈ s.localDecls, s.DeclFits d) (hes : ∀ a ∈ es, s.FitsHere s.endings a ∧ a.depth ≤ k)
    (hk : initDepth s.maxDepth s.frame.depth ≤ k) :
    s.StmtsFit k (s.localDecls.map Stmt.decl ++ es.map Stmt.expr) := by
  have hmem : ∀ d, Stmt.decl d ∈ s.localDecls.map Stmt.decl → d ∈ s.localDecls := fun d hd => by
    obtain ⟨_, hd, heq⟩ := List.mem_map.mp hd
    exact Stmt.decl.inj heq ▸ hd
  refine StmtsFit.append ⟨fun flag => ?_, fun x hx => List.mem_of_mem_filter (hmem _ hx),
    fun d hd => hs.shaped_local (hmem d hd) (hdecls d (hmem d hd)), fun a st hst ha => ?_⟩ hs hlocal hloop hes
  · refine hs.fits_block (A := fun _ => False) (b := ⟨_, flag⟩) hlocal
      (fun d hd => ⟨hmem d hd, hdecls d (hmem d hd)⟩) (fun a ha => ?_) (collects_of_isLoop hloop _) fun _ => False.elim
    obtain ⟨_, -, heq⟩ := List.mem_map.mp ha
    cases heq
  · obtain ⟨d, hd, rfl⟩ := List.mem_map.mp hst
    cases d with
    | var v =>
      cases ha
      exact ((hdecls _ hd).depth v rfl).trans hk
    | _ => cases ha

/-! ## Simple calls -/

/-- A call of a method without parameters on a readable variable. -/
theorem Sound.stands_simpleCall (hs : s.Sound) (h : a ∈ s.simpleCalls) : s.Stands noTargets 2 a := by
  obtain ⟨d, hd, h⟩ := List.mem_flatMap.mp h
  split at h
  · cases h
  rename_i t ht
  have hplain := hs.plain_readable hd ht
  split at h
  · cases h
  rename_i c m hr
  obtain ⟨f, hf, rfl⟩ := List.mem_map.mp h
  obtain ⟨hf, hsimple⟩ := List.mem_filter.mp hf
  simp only [Bool.and_eq_true, List.isEmpty_iff, FuncDecl.isGeneric, Bool.not_eq_true', Bool.not_eq_false'] at hsimple
  obtain ⟨hparams, htypeParams⟩ := hsimple
  obtain ⟨hfuncs, hm⟩ := hs.isPlain_of_anyReceiver? hplain hr
  obtain ⟨-, hret, -⟩ := hfuncs f hf
  have hcallee : s.IsCallee f (some (.var d.name t)) :=
    (hs.declared_of_anyReceiver? hr hf).imp hasFunc_of_mem fun hf => ⟨rfl, hf⟩
  refine .of_children rfl (List.forall_mem_singleton.mpr (hret.subst_plain fun _ _ h => hm.lookup h).1)
    (fun _ _ _ _ => trivial) (fun s' hl => ?_) (List.forall_mem_singleton.mpr (.readable hs hd hplain))
  have hnone : ([] : List Expr).length =
      (f.params.filter fun p => !(s'.language == .kotlin && p.defaultValue.isSome)).length := by
    rw [hparams]
    rfl
  have hcalls := (hcallee.mono hl).calls (m := ∅) (.inr fun _ _ => rfl) hnone
  rwa [htypeParams] at hcalls

/-! ## Strings and counters -/

namespace AssignableVar

theorem step (h : s.AssignableVar x) (hstep : s.Step P s') : s'.AssignableVar x := by
  obtain ⟨m, hm, hscope⟩ := h
  refine ⟨m, hstep.keeps m x hm, ?_⟩
  rw [hstep.frame]
  exact hscope

/-- It can be read. -/
theorem stands (h : s.AssignableVar x) (hs : s.Sound) (ht : t.Plain) : s.Stands noTargets 1 (.var x t) := by
  obtain ⟨m, ⟨v, hv, rfl, -⟩, hscope⟩ := h
  have hm : m ∈ s.frame.ns.lineage := by
    rcases hscope with rfl | ⟨-, hm, -⟩
    · exact Namespace.global_mem_lineage hs.rooted
    · exact hm
  refine .var hs hm hv rfl ?_ ht
  unfold canRead
  split
  · rename_i r w hr hw
    cases hw
    rcases hscope with rfl | ⟨-, -, hwithin⟩
    · simp [Namespace.global_isGlobal]
    · simp [hwithin r hr]
  · rfl

end AssignableVar

/-- A variable that can be assigned in the current scope, which does not declare it itself. -/
def AssignableOuter (s : Session) (x : String) : Prop :=
  s.AssignableVar x ∧ (s.Shared s.frame.ns x ∨ s.OuterTargets x)

theorem AssignableOuter.step (h : s.AssignableOuter x) (hstep : s.Step P s') : s'.AssignableOuter x := by
  refine ⟨h.1.step hstep, ?_⟩
  rw [hstep.frame]
  exact h.2.imp hstep.shared (outerTargets_mono hstep.toLeads hstep.frame)

/-- What can be assigned in a scope can be assigned in one inside. -/
theorem AssignableVar.inside (h : s.AssignableVar x) (hl : s.Leads s₀) (hns : s₀.frame.ns = s.frame.ns.child n)
    (hroot : s₀.frame.captureRoot = s.frame.captureRoot) : s₀.AssignableOuter x := by
  obtain ⟨m, hm, rfl | ⟨hglobal, hmem, hwithin⟩⟩ := h
  · exact ⟨⟨_, hl.keeps _ _ hm, .inl rfl⟩, .inl (.inl (hl.keeps _ _ hm))⟩
  · have hmem' : m ∈ s₀.frame.ns.lineage := hns ▸ Namespace.child_mem_lineage hmem
    refine ⟨⟨m, hl.keeps _ _ hm, .inr ⟨hglobal, hmem', hroot ▸ hwithin⟩⟩, .inr ⟨m, hl.keeps _ _ hm, hglobal, hmem', ?_,
      hroot ▸ hwithin⟩⟩
    rw [hns]
    exact Namespace.ne_child (Namespace.mem_lineage.mp hmem).1

/-- What assigns a variable that the current scope does not declare. -/
theorem AssignableOuter.stands (hx : s.AssignableOuter x) (hs : s.Sound) (hflat : a.isFlat) (htypes : a.types = [])
    (haccess : ∀ c v, a.Accesses c v ↔ ∃ y, Visibility.access? v x = some y ∧ y.isTarget)
    (hconstruct : ∀ c l, a.Constructs c l) (hread : ∀ c v, a.Reads c v)
    (hparts : ∀ b ∈ a.children, s.Stands noTargets k b) : s.Stands s.endings (k + 1) a := by
  refine .of_children hflat (by rw [htypes]; nofun) (fun s' hl v hv => (haccess _ v).mpr ?_) (fun _ _ => hconstruct _ _)
    (fun b hb => (hparts b hb).any) fun _ _ _ _ => hread _ _
  exact hs.isTarget_access hx.1.target hl hv hx.2

end Session

namespace Gen

/-- **A string variable that can be appended to.** -/
theorem stringAccumulator_ensures (hs : s.Sound) (he : s.ServedExprs e 1) (hplace : s.HasPlace)
    (hP : P.Covers s.frame.ns) :
    (stringAccumulator e).Ensures (Step P) s fun x s' => s'.AssignableVar x := by
  unfold stringAccumulator
  refine .get ((Ensures.pick.drawStep hs).bind fun chosen s₁ h₁ hpick => ?_)
  split
  · rename_i x
    obtain ⟨d, hd, hx⟩ := List.mem_filterMap.mp (hpick.2.2 x rfl)
    cases d with
    | var v =>
      obtain ⟨-, heq⟩ := Option.ite_none_right_eq_some.mp hx
      cases heq
      exact .pure (.refl h₁.sound) ((hs.assignableVar_of_mem hd).step h₁)
    | _ => cases hx
  · refine genChangeable_step h₁.sound (s.language.plain_builtin (by decide)) (he.step h₁)
      (.inr (hplace.mono h₁.toLeads h₁.frame)) (h₁.frame ▸ hP) fun v s₂ h₂ _ hmutable => .pure (.refl h₂.sound) ?_
    rw [← h₂.frame] at hmutable
    exact h₂.sound.assignableVar_here (by rw [h₂.frame, h₁.frame]; exact hplace.body) hmutable

/-- **A piece is appended to a string.** -/
theorem genAppend_ensures (hs : s.Sound) (he : s.ServedExprs e 1) (hP : P.Covers s.frame.ns)
    (hx : s.AssignableOuter x) :
    (genAppend e x).Ensures (Step P) s fun st s' => ∃ a, st = .expr a ∧
      s'.Stands s'.endings (exprDepth s'.maxDepth (s'.frame.depth + 1) s'.language.stringType + 2) a := by
  unfold genAppend
  refine .get ?_
  have hstring : s.language.stringType.Plain := s.language.plain_builtin (by decide)
  refine (nestedExpr_ensures hs he (.inl hstring) hP).bind fun piece s₁ h₁ hpiece => .pure (.refl h₁.sound) ⟨_, rfl, ?_⟩
  have hpiece := hpiece.value hstring.isVoid
  rw [h₁.frame, h₁.language]
  refine (hx.step h₁).stands h₁.sound rfl rfl (fun _ _ => Iff.rfl) (fun _ _ => trivial) (fun _ _ => trivial) ?_
  refine List.forall_mem_singleton.mpr (.quiet rfl ?_ (fun _ _ => trivial) (fun _ _ => trivial) ?_)
  · exact List.forall_mem_singleton.mpr (.inl hstring)
  · refine List.forall_mem_cons.mpr ⟨?_, List.forall_mem_singleton.mpr hpiece⟩
    exact ((hx.step h₁).1.stands h₁.sound hstring).deeper exprDepth_pos

/-- **The statements of a loop** at the limit of depth, or those of a body. -/
theorem genLoopStmts_ensures (hs : s.Sound) (he : s.frame.depth < s.maxDepth → s.Served e 0)
    (hns : s.frame.ns.IsLocal) (hloop : s.frame.ns.IsLoop) (hplace : s.HasPlace)
    (hdecls : ∀ d ∈ s.localDecls, s.DeclFits d)
    (hP : P.Covers s.frame.ns) (hk : initDepth s.maxDepth s.frame.depth ≤ k)
    (hbody : s.frame.depth < s.maxDepth → bodyDepth s.maxDepth s.frame.depth ≤ k) :
    (genLoopStmts e).Ensures (Step P) s fun stmts s' => s'.StmtsFit k stmts := by
  unfold genLoopStmts
  refine .get ?_
  split
  · refine (Ensures.pick.drawStep hs).bind fun call s₁ h₁ hpick => .pure (.refl h₁.sound) (StmtsFit.step ?_ h₁)
    refine hs.stmtsFit_localDecls hns hloop hdecls (fun a ha => ?_) hk
    have hcall := hs.stands_simpleCall (hpick.2.2 a (Option.mem_toList.mp ha))
    exact ⟨hcall.fits.targets (.noTargets trivial), hcall.depth.trans (two_le_initDepth.trans hk)⟩
  · rename_i hdeep
    have hdeep : s.frame.depth < s.maxDepth := Nat.lt_of_not_le hdeep
    refine ((he hdeep).body hs s.language.requested_voidType hns.ne_global hplace hdecls hP).bind
      fun body s₁ h₁ hb => ?_
    have hlimit : bodyDepth s₁.maxDepth s₁.frame.depth ≤ k := by
      rw [h₁.maxDepth_eq, h₁.frame]
      exact hbody hdeep
    split
    · exact .pure (.refl h₁.sound) ((hb.stmtsFit h₁.sound s.language.isVoid_voidType).deeper hlimit)
    · exact .pure (.refl h₁.sound) (StmtsFit.nil.append h₁.sound (h₁.frame ▸ hns) (h₁.frame ▸ hloop)
        (List.forall_mem_singleton.mpr ⟨hb.fits.targets ⟨fun _ => id, False.elim⟩, hb.depth.trans hlimit⟩))

end Gen

namespace Session

/-- The block can be the body of a loop of the current scope, whose own scope is `n`. -/
structure LoopFits (s : Session) (n : String) (b : Block) : Prop where
  fits : s.Fits (s.frame.ns.child n) s.frame.captureRoot ⟨s.LocalTargets, False⟩ (Block.places · b)
  decls : ∀ d ∈ b.decls, s.Shapes d ∧ d.IsWhole
  depth : ∀ a ∈ b.exprs, a.depth + 2 ≤ bodyDepth s.maxDepth s.frame.depth

/-- The session is in the body of a loop of the frame `f`. -/
structure InLoop (s : Session) (f : Frame) (n : String) : Prop where
  ns : s.frame.ns = f.ns.child n
  root : s.frame.captureRoot = f.captureRoot
  depth : s.frame.depth = f.depth + 1
  place : s.HasPlace
  isLocal : s.frame.ns.IsLocal
  isLoop : s.frame.ns.IsLoop

theorem InLoop.step {f : Frame} (h : s.InLoop f n) (hstep : s.Step P s') : s'.InLoop f n :=
  ⟨hstep.frame ▸ h.ns, hstep.frame ▸ h.root, hstep.frame ▸ h.depth, h.place.mono hstep.toLeads hstep.frame,
    hstep.frame ▸ h.isLocal, hstep.frame ▸ h.isLoop⟩

/-- What stands in the body of a loop fits in its scope as seen from around. -/
theorem StmtsFit.loopFits {f : Frame} (h : s.StmtsFit k stmts) (hloop : s.InLoop f n)
    (hk : k + 2 ≤ bodyDepth s.maxDepth f.depth) : LoopFits { s with frame := f } n ⟨stmts, false⟩ where
  fits := by
    refine fits_withFrame.mpr ?_
    have hplaces := h.places false
    rw [hloop.ns, hloop.root] at hplaces
    refine hplaces.targets ⟨?_, id⟩
    rintro x ⟨m, hm, hglobal, hmem, hne, hwithin⟩
    rw [hloop.ns] at hmem hne
    rw [hloop.root] at hwithin
    obtain ⟨hin, hnil⟩ := Namespace.mem_lineage.mp hmem
    exact ⟨m, hm, hglobal, Namespace.mem_lineage.mpr ⟨Namespace.isWithin_of_child hin hne, hnil⟩, hwithin⟩
  decls d hd := h.decls d (Block.mem_decls.mp hd)
  depth a ha := by
    obtain ⟨st, hst, heq⟩ := List.mem_filterMap.mp ha
    exact (Nat.add_le_add_right (h.depth a st hst heq) 2).trans hk

end Session

namespace Gen

/-- **What a loop does at its end**: it appends to the string and takes its last step. -/
theorem endLoop_ensures {f : Frame} {string : Option String} {last : Option Expr} (hs : s.Sound)
    (he : s.ServedExprs e 1) (hP : P.Covers s.frame.ns) (hloop : s.InLoop f n)
    (hk : k + 2 = bodyDepth s.maxDepth f.depth) (hstmts : s.StmtsFit k stmts)
    (hstring : ∀ x ∈ string, s.AssignableOuter x) (hlast : ∀ a ∈ last, ∃ x, a = .step x .inc ∧ s.AssignableOuter x) :
    (do let append ← match string with
          | some x => pure [← genAppend e x]
          | none => pure []
        return ⟨stmts ++ append ++ last.toList.map Stmt.expr, false⟩ : Gen Block).Ensures (Step P) s
      fun b s' => LoopFits { s' with frame := f } n b := by
  -- The step of the counter stands last, whatever is appended before it.
  have hend : ∀ (es : List Expr) (s₁ : Session), s.Step P s₁ → (∀ a ∈ es, s₁.Stands s₁.endings k a) →
      (pure ⟨stmts ++ es.map Stmt.expr ++ last.toList.map Stmt.expr, false⟩ : Gen Block).Ensures (Step P) s₁
        fun b s' => LoopFits { s' with frame := f } n b := by
    intro es s₁ h₁ hes
    have hloop₁ := hloop.step h₁
    refine .pure (.refl h₁.sound) (StmtsFit.loopFits (k := k) ?_ hloop₁ (by rw [h₁.maxDepth_eq, hk]))
    refine ((hstmts.step h₁).append h₁.sound hloop₁.isLocal hloop₁.isLoop fun a ha =>
      ⟨(hes a ha).fits, (hes a ha).depth⟩).append h₁.sound hloop₁.isLocal hloop₁.isLoop fun a ha => ?_
    obtain ⟨x, rfl, hx⟩ := hlast a (Option.mem_toList.mp ha)
    have hstep : s₁.Stands s₁.endings 1 (.step x .inc) :=
      (hx.step h₁).stands h₁.sound rfl rfl (fun _ _ => Iff.rfl) (fun _ _ => trivial) (fun _ _ => trivial) nofun
    have := two_le_initDepth (L := s.maxDepth) (d := f.depth)
    have := initDepth_lt_bodyDepth (L := s.maxDepth) (d := f.depth)
    exact ⟨hstep.fits, hstep.depth.trans (by omega)⟩
  split
  · rename_i x
    refine (genAppend_ensures hs he hP (hstring x rfl)).bind fun st s₁ h₁ ⟨a, hst, ha⟩ => .pass ?_
    subst hst
    refine hend [a] s₁ h₁ (List.forall_mem_singleton.mpr (ha.deeper ?_))
    rw [h₁.maxDepth_eq, (hloop.step h₁).depth]
    have : exprDepth s.maxDepth (f.depth + 1 + 1) s₁.language.stringType + 4 ≤ bodyDepth s.maxDepth f.depth :=
      exprDepth_append (by cases s₁.language <;> rfl)
    omega
  · exact .pass (hend [] s (.refl hs) nofun)

/-- **The body of a loop.** -/
theorem genLoopBody_ensures {string : Option String} {last : Option Expr} (hs : s.Sound) (he : s.ServedExprs e 2)
    (hbody : s.frame.depth + 1 < s.maxDepth → s.Served e 1) (hplace : s.HasPlace)
    (hopened : s.Opened (s.frame.ns.child n)) (hlower : startsUppercase n = false)
    (hisLoop : (s.frame.ns.child n).IsLoop)
    (hdecls : ∀ s₀ : Session, s₀.InLoop s.frame n → s.Leads s₀ → s₀.context = s.context → s₀.Sound →
      ∀ d ∈ s₀.localDecls, s₀.DeclFits d)
    (hstring : ∀ x ∈ string, s.AssignableVar x) (hlast : ∀ a ∈ last, ∃ x, a = .step x .inc ∧ s.AssignableVar x) :
    (genLoopBody e (s.frame.ns.child n) string last).Ensures (Step (.within (s.frame.ns.child n))) s
      fun b s' => s'.LoopFits n b := by
  have hns : (s.frame.ns.child n).IsLocal := ⟨Namespace.child_ne_global hs.rooted, Namespace.className?_child_of_lower hlower⟩
  have henter : s.CanEnter { s.frame.enter (s.frame.ns.child n) with inFuncBody := true, inValueBranch := false } :=
    { rooted := Namespace.head?_child hs.rooted
      opened := hopened
      body := fun _ => ⟨hns.className?_eq, fun r hr =>
        Namespace.child_isWithin ((hs.body hplace.body).2 r hr)⟩
      root := fun h => (h.elim hns.ne_global (· hns.className?_eq)).elim }
  refine .inOtherScope hs henter (allows_refl _ _) (fun _ h => Namespace.ne_child (Namespace.isWithin_refl _) h)
    fun s₀ heq hs₀ => ?_
  have hleads : s.Leads s₀ := heq ▸ leads_withFrame s _
  have hloop : s₀.InLoop s.frame n := by
    rw [heq]
    exact ⟨rfl, rfl, rfl, ⟨rfl, fun _ => rfl⟩, hns, hisLoop⟩
  have hmax : s₀.maxDepth = s.maxDepth := hleads.maxDepth_eq
  -- The statements are given the depth of a body less the two levels that the loop itself takes.
  obtain ⟨k, hk⟩ := Nat.exists_eq_add_of_le' ((Nat.le_add_left _ _).trans
    (initDepth_lt_bodyDepth (L := s.maxDepth) (d := s.frame.depth)))
  refine (genLoopStmts_ensures (k := k) hs₀ (fun hlt => ?_) hloop.isLocal hloop.isLoop hloop.place
    (hdecls s₀ hloop hleads (by rw [heq]) hs₀) (.inr hloop.ns) ?_ fun hlt => ?_).bind fun stmts s₁ h₁ hstmts => ?_
  · rw [heq]
    exact (hbody (by rw [hloop.depth, hmax] at hlt; exact hlt)).withFrame le_rfl
  · rw [hloop.depth, hmax]
    have := initDepth_loop (L := s.maxDepth) (d := s.frame.depth)
    omega
  · rw [hloop.depth, hmax] at hlt ⊢
    have := bodyDepth_loop (Nat.lt_of_succ_lt hlt)
    omega
  · have he₁ : s₁.ServedExprs e 1 := by
      refine ServedExprs.step (s := s₀) ?_ h₁
      rw [heq]
      exact he.withFrame le_rfl
    -- A variable that can be assigned around the loop is an outer one inside it.
    have hinside : ∀ x, s.AssignableVar x → s₁.AssignableOuter x := fun x hx =>
      hx.inside (hleads.trans h₁.toLeads) (hloop.step h₁).ns (hloop.step h₁).root
    refine endLoop_ensures h₁.sound he₁ (.inr (hloop.step h₁).ns) (hloop.step h₁) ?_ hstmts
      (fun x hx => hinside x (hstring x hx)) fun a ha => ?_
    · rw [h₁.maxDepth_eq, hmax, hk]
    · obtain ⟨x, rfl, hx⟩ := hlast a ha
      exact ⟨x, rfl, hinside x hx⟩

end Gen

end ProgramGen

import ProgramGen.Proofs.Generation.Expression

/-!
# Bodies

The body of a function or closure is an expression, or a block of what its scope declares, of statements
and of a result. A statement assigns variables of the scope and of those around it; seen from around, the
block assigns only those around it.
-/

namespace ProgramGen

open Session

variable {s s' s₁ : Session} {t : Ty} {e : Engine} {P : Permit} {a : Expr} {o : ExprOpts} {n : String} {ret : Ty}
variable {stmts : List Stmt} {result : Option Expr}

namespace Session

/-- What is declared in the current scope besides parameters and closures fits there. -/
theorem Step.declsFit (h : s.Step P s') (hlocal : s.frame.ns.IsLocal) (hdecls : ∀ d ∈ s.localDecls, s.DeclFits d) :
    ∀ d ∈ s'.localDecls, s'.DeclFits d := fun d hd =>
  (h.locals hlocal d hd).elim (fun hd => (hdecls d hd).mono h.toLeads h.frame) id

theorem HasPlace.isLocal (h : s.HasPlace) (hs : s.Sound) (hns : s.frame.ns ≠ .global) : s.frame.ns.IsLocal :=
  ⟨hns, (hs.body h.body).1⟩

/-- A variable that can be assigned here is declared in the block of the scope, or around it. -/
theorem LocalTargets.outer_or_local (h : s.LocalTargets n) :
    s.OuterTargets n ∨ ∃ v : VarDecl, .var v ∈ s.localDecls ∧ v.name = n := by
  obtain ⟨m, hm, hglobal, hmem, hwithin⟩ := h
  by_cases heq : m = s.frame.ns
  · subst heq
    obtain ⟨v, hv, hname, -⟩ := hm
    exact .inr ⟨v, mem_localDecls.mpr ⟨hv, rfl⟩, hname⟩
  · exact .inl ⟨m, hm, hglobal, hmem, heq, hwithin⟩

/-- **A block of the current scope** is a body: it has what the scope declares, and statements; the last of
them, where a value is asked for, is one. -/
theorem Sound.bodyFits_block (hs : s.Sound) (hlocal : s.frame.ns.IsLocal) (hdecls : ∀ d ∈ s.localDecls, s.DeclFits d)
    (hstmts : ∀ st ∈ stmts, ∃ a, st = .expr a ∧ s.IsStatement a)
    (hresult : ∀ a ∈ result, s.IsStatement a ∧ (ret.isVoid = false → s.language = .java → a.isValue))
    (hvalue : ret.isVoid = false → result ≠ none) :
    s.BodyFits ret (.block ⟨s.localDecls.map Stmt.decl ++ stmts ++ result.toList.map Stmt.expr, true⟩) := by
  set b : Block := ⟨s.localDecls.map Stmt.decl ++ stmts ++ result.toList.map Stmt.expr, true⟩ with hb
  have hdecl : ∀ d, Stmt.decl d ∈ b.stmts ↔ d ∈ s.localDecls := fun d => by
    simp only [hb, List.mem_append, List.mem_map, Stmt.decl.injEq, exists_eq_right, reduceCtorEq, and_false, exists_false,
      or_false]
    refine or_iff_left fun hd => ?_
    obtain ⟨a, ha, -⟩ := hstmts _ hd
    cases ha
  have hexpr : ∀ a, Stmt.expr a ∈ b.stmts → s.IsStatement a := fun a ha => by
    simp only [hb, List.mem_append, List.mem_map, reduceCtorEq, and_false, exists_false, false_or, Stmt.expr.injEq,
      exists_eq_right, Option.mem_toList] at ha
    rcases ha with ha | ha
    · obtain ⟨_, heq, h⟩ := hstmts _ ha
      cases heq
      exact h
    · exact (hresult a ha).1
  obtain ⟨k, hk⟩ := Nat.exists_eq_add_of_le' ((Nat.le_add_left _ _).trans
    (initDepth_lt_bodyDepth (L := s.maxDepth) (d := s.frame.depth)))
  exact
    { fits := by
        exact hs.fitsHere_block hlocal (fun d hd => ⟨(hdecl d).mp hd, hdecls d ((hdecl d).mp hd)⟩)
          (fun a ha => (hexpr a ha).fits) (fun x hx => .inl ((hdecl _).mpr (mem_localDecls.mpr ⟨hx, rfl⟩)))
          fun n h => h.outer_or_local.imp_right fun ⟨v, hv, hname⟩ => ⟨v, (hdecl _).mpr hv, hname⟩
      decls := by
        rintro - _ heq d hd
        cases heq
        exact ⟨(hdecl d).mp hd, hdecls d ((hdecl d).mp hd)⟩
      depth := by
        rw [hk]
        refine Block.depth_le (k := k + 1) (fun v hv => ?_) fun a ha => ?_
        · have := (hdecls _ ((hdecl _).mp hv)).depth v rfl
          have := initDepth_lt_bodyDepth (L := s.maxDepth) (d := s.frame.depth)
          omega
        · have := (hexpr a ha).depth
          omega
      results := by
        intro hl a ha
        unfold Expr.results at ha
        split at ha
        · cases ha
        rename_i hvoid
        rw [Bool.not_eq_true] at hvoid
        obtain ⟨r, rfl⟩ := Option.ne_none_iff_exists'.mp (hvalue hvoid)
        have hlast : b.stmts.getLast? = some (.expr r) := by simp [hb]
        simp only [hlast, List.mem_singleton] at ha
        exact ha ▸ (hresult r rfl).2 hvoid hl }

end Session

namespace Gen

variable (hs : s.Sound) (he : s.ServedExprs e 0) (hplace : s.HasPlace) (hP : P.Covers s.frame.ns)
include hs he hplace hP

/-- **A statement that is made for its effect.** -/
theorem genSideEffect_ensures : (genSideEffect e).Ensures (Step P) s fun r s' =>
    ∀ st ∈ r, ∃ a, st = .expr a ∧ s'.IsStatement a := by
  unfold genSideEffect
  refine .get (((selectType_ensures hs).drawStep hs).bind fun t s₁ h₁ ⟨_, ht⟩ => ?_)
  have ht : t.Requested := ht.imp Chosen.plain fun h => ⟨s.language, h.1⟩
  have hP₁ : P.Covers s₁.frame.ns := h₁.frame ▸ hP
  refine ((he.step h₁).answer h₁.sound ht hP₁).bind fun a s₂ h₂ ha => ?_
  have h₁₂ := h₁.trans h₂
  rw [← h₂.frame] at ha
  refine .map ((asStatement_step h₂.sound ha (.inr (hplace.mono h₁₂.toLeads h₁₂.frame)) (h₁₂.frame ▸ hP)).mono
    fun r s₃ _ hr st hst => ?_)
  obtain ⟨a, ha, rfl⟩ := Option.map_eq_some_iff.mp hst
  exact ⟨a, rfl, hr a ha⟩

section Block

variable (hns : s.frame.ns ≠ .global) (hdecls : ∀ d ∈ s.localDecls, s.DeclFits d)
variable (hbody : s.frame.depth + 1 < s.maxDepth → s.Served e 1)
include hns hdecls hbody

/-- **A block for the current scope**, with a result. -/
theorem genBlock_ensures (hresult : ∀ a ∈ result, s.IsStatement a ∧ (ret.isVoid = false → s.language = .java → a.isValue))
    (hvalue : ret.isVoid = false → result ≠ none) :
    (genBlock e result).Ensures (Step P) s fun a s' => s'.BodyFits ret a := by
  have hlocal := hplace.isLocal hs hns
  have hkeep : ∀ (o : Option Stmt) (s₁ s₂ : Session), s₁.Step P s₂ → (∀ st ∈ o, ∃ a, st = .expr a ∧ s₁.IsStatement a) →
      ∀ st ∈ o, ∃ a, st = .expr a ∧ s₂.IsStatement a := fun o s₁ s₂ h₁₂ h st hst => by
    obtain ⟨a, rfl, ha⟩ := h st hst
    exact ⟨a, rfl, ha.step h₁₂⟩
  unfold genBlock
  refine .get ((Ensures.sizeBetween.drawStep hs).bind fun count s₁ h₁ _ => ?_)
  refine (Ensures.times (.refl h₁.sound) (fun s' hstep => genSideEffect_ensures hstep.sound
    (he.step (h₁.trans hstep)) (hplace.mono (h₁.trans hstep).toLeads (h₁.trans hstep).frame)
    ((h₁.trans hstep).frame ▸ hP)) fun o s₁ s₂ => hkeep o s₁ s₂).bind fun effects s₂ h₂ heffects => ?_
  have h₁₂ := h₁.trans h₂
  refine (Ensures.chance.drawStep h₂.sound).bind fun wanted s₃ h₃ _ => ?_
  have h₁₃ := h₁₂.trans h₃
  have hrest : ∀ (loop : List Stmt) (s₄ : Session), s₃.Step P s₄ → (∀ st ∈ loop, ∃ a, st = .expr a ∧ s₄.IsStatement a) →
      Ensures (Step P) (do let s ← get
                           pure (.block ⟨s.localDecls.map Stmt.decl ++ (effects.filterMap id ++ loop) ++
                             result.toList.map Stmt.expr, true⟩)) s₄ fun a s' => s'.BodyFits ret a := by
    intro loop s₄ h₄ hloop
    have h₁₄ := h₁₃.trans h₄
    refine .get (.pure (.refl h₄.sound) (h₄.sound.bodyFits_block (h₁₄.frame ▸ hlocal) (h₁₄.declsFit hlocal hdecls)
      (fun st hst => ?_) (fun a ha => ?_) hvalue))
    · rcases List.mem_append.mp hst with hst | hst
      · obtain ⟨o, ho, rfl⟩ := List.mem_filterMap.mp hst
        exact hkeep _ _ _ (h₃.trans h₄) (heffects _ ho) st rfl
      · exact hloop st hst
    · obtain ⟨hstatement, hisValue⟩ := hresult a ha
      exact ⟨hstatement.step h₁₄, fun hvoid hl => hisValue hvoid (h₁₄.language ▸ hl)⟩
  split
  · refine (genLoop_ensures h₃.sound ((he.deeper (Nat.zero_le 1)).step h₁₃) (fun hlt => (hbody ?_).step h₁₃)
      (hplace.mono h₁₃.toLeads h₁₃.frame) (h₁₃.frame ▸ hns) (h₁₃.frame ▸ hP)).bind fun loop s₄ h₄ hloop =>
      hrest loop s₄ h₄ hloop
    rwa [h₁₃.maxDepth_eq, h₁₃.frame] at hlt
  · exact .pass (hrest [] s₃ (.refl h₃.sound) nofun)

/-- **A body for the current scope.** -/
theorem genBody_ensures (ht : ret.Requested) : (genBody e ret).Ensures (Step P) s fun a s' => s'.BodyFits ret a := by
  have hlocal := hplace.isLocal hs hns
  unfold genBody
  extract_lets isVoid finish begin
  have hfinish : ∀ (result : Option Expr) (s₁ : Session), s.Step P s₁ →
      (∀ a ∈ result, s₁.IsStatement a ∧ (ret.isVoid = false → s₁.Answers s₁.frame.depth ret a)) →
      (ret.isVoid = false → result ≠ none) →
      (finish result).Ensures (Step P) s₁ fun a s' => s'.BodyFits ret a := by
    intro result s₁ h₁ hresult hvalue
    refine .get ((Ensures.onlyIf (R := OnlyDraws) (refl_of OnlyDraws _) fun _ => .chance).drawStep h₁.sound |>.bind
      fun bare s₂ h₂ hbare => ?_)
    have h₁₂ := h₁.trans h₂
    split
    · rename_i r
      obtain ⟨⟨stream, hstream⟩, hbare⟩ := hbare
      have hwanted := hbare rfl
      simp only [Bool.and_eq_true, Bool.not_eq_true', List.isEmpty_iff] at hwanted
      have hstands := (((hresult r rfl).2 hwanted.1).value hwanted.1).step h₂
      rw [← h₂.frame, ← h₂.maxDepth_eq] at hstands
      -- Nothing is declared in the scope, so nothing is read from it.
      have hcollects : s₂.Collects ⟨[], false⟩ := fun x hx => by
        have hmem : Decl.var x ∈ s₂.localDecls := mem_localDecls.mpr ⟨hx, rfl⟩
        rw [hstream, show (s₁.atStream stream).localDecls = [] from hwanted.2] at hmem
        cases hmem
      exact .pure (.refl h₂.sound)
        { fits := (FitsHere.bare hstands.fits h₂.sound (h₁₂.frame ▸ hlocal.className?_eq) hcollects).targets .noLocals
          decls := fun hvoid => absurd hvoid (by simp [show ret.isVoid = false from hwanted.1])
          depth := hstands.depth.trans (Nat.le_of_succ_le exprDepth_le_initDepth.1)
          results := fun hl a ha => Expr.results_of_isValue (hstands.value hl) a ha ▸ hstands.value hl }
    · exact genBlock_ensures h₂.sound (he.step h₁₂) (hplace.mono h₁₂.toLeads h₁₂.frame) (h₁₂.frame ▸ hP)
        (h₁₂.frame ▸ hns) (h₁₂.declsFit hlocal hdecls)
        (fun hlt => (hbody (by rwa [h₁₂.maxDepth_eq, h₁₂.frame] at hlt)).step h₁₂)
        (fun a ha => ⟨((hresult a ha).1).step h₂,
          fun hvoid hl => (((hresult a ha).2 hvoid).value hvoid).value (h₂.language ▸ hl)⟩)
        hvalue
  have hbegin : ∀ (t : Ty) (s₁ : Session), s.Step P s₁ → t.Requested → (ret.isVoid = false → t = ret) →
      (begin t).Ensures (Step P) s₁ fun a s' => s'.BodyFits ret a := by
    intro t s₁ h₁ ht heq
    refine ((he.step h₁).answer h₁.sound ht (h₁.frame ▸ hP)).bind fun a s₂ h₂ ha => ?_
    have h₁₂ := h₁.trans h₂
    rw [← h₂.frame] at ha
    split
    · rename_i hvoid
      refine (asStatement_step h₂.sound ha (.inr (hplace.mono h₁₂.toLeads h₁₂.frame)) (h₁₂.frame ▸ hP)).bind
        fun result s₃ h₃ hresult => hfinish result s₃ (h₁₂.trans h₃) (fun b hb => ⟨hresult b hb, fun hnot => ?_⟩) fun hnot => ?_
      · exact absurd hvoid (by simpa using hnot)
      · exact absurd hvoid (by simpa using hnot)
    · rename_i hvoid
      obtain rfl := heq (by simpa using hvoid)
      refine .pass (hfinish (some a) s₂ h₁₂ (fun b hb => ?_) nofun)
      cases hb
      exact ⟨ha.isStatement, fun _ => ha⟩
  split
  · exact ((selectType_chosen hs rfl).drawStep hs).bind fun t s₁ h₁ ⟨_, hchosen⟩ =>
      hbegin t s₁ h₁ (.inl hchosen.plain) fun hnot => absurd ‹isVoid› (by simpa using hnot)
  · exact .pass (hbegin ret s (.refl hs) ht fun _ => rfl)

end Block

end Gen

end ProgramGen

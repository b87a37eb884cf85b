import ProgramGen.Proofs.Generation.Matching
import ProgramGen.Synthesis.Value

/-!
# Closures

A closure has a scope of its own for its parameters and its body, and is registered in the scope
around it. What stands in it fits around it; there it is one more closure, and nothing else is new.
-/

namespace ProgramGen

open Session

variable {s s' s₀ s₁ s₂ : Session} {t u ret : Ty} {e : Engine} {P P' : Permit} {n : String} {a : Expr}
variable {params : List Ty} {parent ns : Namespace} {p : ParamDecl} {ps : List ParamDecl} {l : LambdaDecl}
variable {root : Option Namespace} {C : Context} {x : String}

namespace Session

/-! ## Parameters -/

/-- A parameter under a name that was just drawn. -/
theorem NewName.registers_param (h : s.NewName p.name s') (hs : s.Sound)
    (hC : ∀ m, C.scope m = (s.context.push ns (.param p)).scope m) (hopened : s'.Opened ns) (hns : ns.IsLocal)
    (hP : P.scopes ns) (hmaking : P.making ns) (hty : p.ty.Plain) (hdefault : p.defaultValue = none) :
    Registers P s (s'.withContext C) ns (.param p) where
  scopes := hC
  kind := nofun
  member hm := absurd hns.className?_eq hm
  field := nofun
  welcome := welcomes_of_fresh (fun n hn => by rw [List.mem_singleton.mp hn]; exact h.not_taken hs) hty nofun
  opened n hn := spent_withContext.mpr (hopened n hn)
  spent n hn := by
    rw [List.mem_singleton.mp hn]
    exact spent_withContext.mpr h.spent
  permitted := .inr (.inl hP)
  taken n hn hspent := by
    rw [List.mem_singleton.mp hn] at hspent
    exact absurd hspent h.unspent
  mutables := nofun
  params _ _ _ := hmaking
  top hglobal := absurd hglobal hns.ne_global
  shapes := shapes_param hty fun a ha => by rw [hdefault] at ha; cases ha
  here _ _ hparam _ := absurd rfl (hparam p)

/-- A parameter that is registered stays so. -/
theorem Extends.param_mem (h : s.Extends P s') (hp : .param p ∈ s.decls ns) : .param p ∈ s'.decls ns := by
  obtain ⟨d, hd, heq⟩ := List.mem_map.mp ((h.decls ns).subset (List.mem_map_of_mem hp))
  exact Decl.eq_of_outline_param heq.symm rfl ▸ hd

/-- The session is in the scope of a closure that is about to be made. -/
structure InLambda (s : Session) (parent : Namespace) (n : String) : Prop where
  ns : s.frame.ns = parent.child n
  root : s.frame.captureRoot = some (parent.child n)
  place : s.HasPlace
  isLocal : (parent.child n).IsLocal
  inner : IsInner parent n

theorem InLambda.step (h : s.InLambda parent n) (hstep : s.Step P s') : s'.InLambda parent n :=
  ⟨hstep.frame ▸ h.ns, hstep.frame ▸ h.root, h.place.mono hstep.toLeads hstep.frame, h.isLocal, h.inner⟩

end Session

namespace Gen

/-- **New parameters enter the scope of a closure.** -/
theorem lambdaParams_ensures (hs : s.Sound) (h : s.InLambda parent n) (hparams : ∀ t ∈ params, t.Plain) :
    (params.mapM fun t => do
        let p : ParamDecl := ⟨← word, t, none⟩
        updateContext (·.addVar (parent.child n) (.param p))
        return p : Gen (List ParamDecl)).Ensures (Step (.opening (parent.child n))) s fun ps s' =>
      (∀ p ∈ ps, p.defaultValue = none) ∧ s'.decls (parent.child n) = s.decls (parent.child n) ++ ps.map .param := by
  induction params generalizing s with
  | nil => exact .pure (.refl hs) ⟨nofun, (List.append_nil _).symm⟩
  | cons t params ih =>
    obtain ⟨ht, hparams⟩ := List.forall_mem_cons.mp hparams
    rw [List.mapM_cons, bind_assoc]
    refine (word_step (P := .within .global) hs).seq fun w s₁ h₁ hname => ?_
    obtain ⟨hname, -⟩ := hname
    have hopened : s₁.Opened (parent.child n) := h.ns ▸ h₁.frame ▸ h₁.sound.here
    have hadd : (updateContext (·.addVar (parent.child n) (.param ⟨w, t, none⟩))).Ensures
        (fun _ s' => s.Step (.opening (parent.child n)) s') s₁ fun _ s' =>
          s' = s₁.withContext (s₁.context.push (parent.child n) (.param ⟨w, t, none⟩)) :=
      addVar_step hs hname.passes hname.context rfl (NewName.registers_param (p := ⟨w, t, none⟩) hname hs
        (fun _ => by rw [hname.context]) hopened h.isLocal rfl rfl ht rfl)
    rw [bind_assoc]
    refine hadd.seq fun _ s₂ h₂ heq => ?_
    have hdecls : s₂.decls (parent.child n) = s.decls (parent.child n) ++ [.param ⟨w, t, none⟩] := by
      rw [heq]
      show Context.declarations (s₁.context.push _ _) _ = _
      rw [Context.declarations_push, if_pos rfl, hname.context]
    rw [pure_bind]
    refine (ih h₂.sound (h.step h₂) hparams).seq fun ps s₃ h₃ hps => .pure (h₂.trans h₃) ⟨?_, ?_⟩
    · exact List.forall_mem_cons.mpr ⟨rfl, hps.1⟩
    · rw [hps.2, hdecls, List.append_assoc]
      rfl

end Gen

namespace Session

/-- No changing variable around a closure can be assigned in it. -/
theorem InLambda.not_outerTargets (h : s.InLambda parent n) : ¬s.OuterTargets x := by
  rintro ⟨m, -, -, hlineage, hne, hwithin⟩
  obtain ⟨hin, -⟩ := Namespace.mem_lineage.mp hlineage
  rw [h.ns] at hin hne
  have := hwithin _ h.root
  rw [Namespace.not_isWithin_child (Namespace.isWithin_of_child hin hne)] at this
  cases this

/-- **What stands in a closure fits around it.** -/
theorem InLambda.fits (h : s.InLambda parent n) (hs : s.Sound)
    (hparams : ∀ p ∈ l.params, p.defaultValue = none ∧ .param p ∈ s.decls (parent.child n))
    (hown : s.ParamsAre (parent.child n) (parameters l.params)) (hbody : s.FitsHere s.bodies l.body) :
    s.Fits parent root noTargets (l.places ·) := by
  refine Fits.append ?_ ?_
  · have hnone : defaults l.params = [] := List.filterMap_eq_nil_iff.mpr fun p hp => (hparams p hp).1
    rw [hnone]
    exact .nil
  · have hfits : s.FitsHere noLocals l.body := hbody.targets ⟨fun _ hx => absurd hx h.not_outerTargets, id⟩
    unfold FitsHere at hfits
    rw [h.ns, h.root] at hfits
    refine hfits.of_closure h.inner (fun y hy => ?_) hown
    obtain ⟨p, hp, rfl⟩ := List.mem_map.mp hy
    have hmem := (hparams p hp).2
    exact ⟨rfl, hs.spent_name hmem, hs.not_isMutable hmem nofun nofun⟩

theorem shapes_lambda (hparams : ∀ p ∈ l.params, p.defaultValue = none) (hdepth : l.body.depth ≤ rootDepth s.maxDepth)
    (hvalues : s.language = .java → ∀ a ∈ l.body.results l.ret, a.isValue) (htypes : ∀ t ∈ l.types, t.Formed) :
    s.Shapes (.lambda l) := by
  have hnone : defaults l.params = [] := List.filterMap_eq_nil_iff.mpr hparams
  refine ⟨fun a ha => ?_, fun hl a ha => hvalues hl a ?_, htypes⟩
  · simp only [Decl.roots, Decl.places, LambdaDecl.places, hnone, List.map_nil, List.nil_append, List.map_cons,
      List.mem_singleton] at ha
    exact ha ▸ hdepth
  · simpa only [Decl.values, hnone, List.nil_append] using ha

/-- Whatever the session grows into, a closure of the function type `signature` implements the type. -/
def ImplementedBy (s : Session) (t signature : Ty) : Prop :=
  ∀ s', s.Leads s' → s'.context.ImplementedBy s'.language t signature

/-- A closure stands where it is registered. -/
theorem stands_lambda {k : Nat}
    (hfits : s.Fits s.frame.ns s.frame.captureRoot noTargets (l.places ·)) (hshapes : s.Shapes (.lambda l))
    (htypes : ∀ t ∈ l.types, t.Formed) (hsam : ∀ t ∈ l.samTarget, s.ImplementedBy t l.signature)
    (hdepth : l.body.depth ≤ k) : s.Stands noTargets (k + 1) (.lambda l) where
  fits := .node ⟨nofun, fun d hd => by rw [List.mem_singleton.mp hd]; exact ⟨hshapes, nofun⟩, htypes⟩
    (fun _ _ _ _ => trivial) (fun s' hl t ht => hsam t ht s' hl) hfits
  depth := Expr.depth_le_succ fun a ha => by
    rw [List.mem_singleton.mp ha]
    exact hdepth
  value _ := rfl

/-- What is known of a closure of the scope `parent` whose own scope is at depth `d`. -/
structure LambdaMade (s : Session) (parent : Namespace) (n : String) (d : Nat) (signature : Ty)
    (samTarget : Option Ty) (l : LambdaDecl) : Prop where
  name : l.name = n
  fits : ∀ root, s.Fits parent root noTargets (l.places ·)
  shapes : s.Shapes (.lambda l)
  types : ∀ t ∈ l.types, t.Formed
  depth : l.body.depth ≤ bodyDepth s.maxDepth d
  signature : l.signature = signature
  samTarget : l.samTarget = samTarget

theorem LambdaMade.withFrame {f : Frame} {d : Nat} {samTarget : Option Ty}
    (h : s.LambdaMade parent n d u samTarget l) : LambdaMade { s with frame := f } parent n d u samTarget l :=
  { h with fits := fun root => fits_withFrame.mpr (h.fits root) }

end Session

namespace Gen

/-- **The parameters and the body of a closure** are made in its scope. -/
theorem lambdaBody_ensures {samTarget : Option Ty} (hs : s.Sound) (h : s.InLambda parent n) (he : s.Served e 0)
    (hparams : ∀ t ∈ params, t.Plain) (hret : ret.Requested) (hsignature : u.Formed)
    (hsam : ∀ t ∈ samTarget, t.Formed) (hempty : s.decls (parent.child n) = []) :
    (do let decls ← params.mapM fun t => do
          let p : ParamDecl := ⟨← word, t, none⟩
          updateContext (·.addVar (parent.child n) (.param p))
          return p
        let body ← e.body ret
        return ⟨n, decls, ret, body, u, samTarget⟩ : Gen LambdaDecl).Ensures (Step (.opening (parent.child n))) s
      fun l s' => s'.LambdaMade parent n s.frame.depth u samTarget l := by
  refine (lambdaParams_ensures hs h hparams).bind fun ps s₁ h₁ ⟨hps, hdecls₁⟩ => ?_
  have h₁' := h.step h₁
  have hns : s₁.frame.ns = parent.child n := h₁'.ns
  have hdecls : ∀ d ∈ s₁.localDecls, s₁.DeclFits d := fun d hd =>
    (h₁.locals (h.ns ▸ h.isLocal) d hd).resolve_left fun hd => by
      have hmem := (mem_localDecls.mp hd).1
      rw [h.ns, hempty] at hmem
      cases hmem
  refine ((he.step h₁).body h₁.sound hret (hns ▸ h.isLocal.ne_global) h₁'.place hdecls
    (P := .within (parent.child n)) (.inr hns)).seq fun b s₂ h₂ hb =>
      .pure (h₂.relax ⟨fun _ _ _ => id, nofun, nofun⟩) ?_
  rw [hempty, List.nil_append] at hdecls₁
  have hps₁ : ∀ p ∈ ps, .param p ∈ s₁.decls (parent.child n) := fun p hp => hdecls₁ ▸ List.mem_map_of_mem hp
  have hps₂ : ∀ p ∈ ps, p.defaultValue = none ∧ .param p ∈ s₂.decls (parent.child n) := fun p hp =>
    ⟨hps p hp, h₂.param_mem (hps₁ p hp)⟩
  have hown : s₂.ParamsAre (parent.child n) (parameters ps) := fun p hp => by
    have hmem := h₂.params _ (hns ▸ h₁.sound.here) nofun p hp
    rw [hdecls₁] at hmem
    obtain ⟨q, hq, heq⟩ := List.mem_map.mp hmem
    cases heq
    exact ⟨_, List.mem_map.mpr ⟨p, hq, rfl⟩⟩
  have hdepth : s₂.frame.depth = s.frame.depth := congrArg Frame.depth (h₂.frame.trans h₁.frame)
  have htypes : ∀ t ∈ LambdaDecl.types ⟨n, ps, ret, b, u, samTarget⟩, t.Formed := by
    refine List.forall_mem_append.mpr ⟨List.forall_mem_cons.mpr ⟨hret.formed, List.forall_mem_cons.mpr
      ⟨hsignature, fun t ht => ?_⟩⟩, fun t ht => hsam t (Option.mem_toList.mp ht)⟩
    obtain ⟨p, hp, rfl⟩ := List.mem_map.mp ht
    exact Ty.Plain.formed (h₁.sound.types _ _ (hps₁ p hp))
  exact
    { name := rfl
      fits := fun root => (h₁'.step h₂).fits (l := ⟨n, ps, ret, b, u, samTarget⟩) h₂.sound hps₂ hown hb.fits
      shapes := shapes_lambda hps (hb.depth.trans bodyDepth_le_rootDepth) hb.results htypes
      types := htypes
      depth := hdepth ▸ hb.depth
      signature := rfl
      samTarget := rfl }

/-- **A closure is made** and registered in the current scope. -/
theorem genLambda_ensures {samTarget : Option Ty} (hs : s.Sound) (he : s.Served e 1) (hparams : ∀ t ∈ params, t.Plain)
    (hret : ret.Requested) (hP : P.Covers s.frame.ns)
    (hsam : ∀ t ∈ samTarget, t.Plain ∧ s.ImplementedBy t (s.language.functionType params ret)) :
    (genLambda e params ret samTarget).Ensures (Step P) s fun a s' =>
      s'.Stands noTargets (bodyDepth s.maxDepth (s.frame.depth + 1) + 1) a ∧
        a.ty? = some (samTarget.getD (s.language.functionType params ret)) := by
  unfold genLambda
  have hname := newName_lambda hs
  set n := "lambda_" ++ toString (s.lambdaCount + 1) with hn
  set s₁ : Session := { s with lambdaCount := s.lambdaCount + 1 } with hs₁
  set parent := s.frame.ns with hparent
  set Q := P.func s parent n with hQ
  refine Ensures.weaken (R := Step Q) ?_ fun _ hstep => hstep.relax (allows_func (not_opened_child hname.unspent))
  refine Ensures.seq (R := fun _ _ => True) (Q := fun _ s' => s' = s₁) (.modify (.of_context rfl) trivial rfl)
    fun _ _ _ heq => ?_
  rw [heq]
  refine .get ?_
  have hstep₁ : s.Step Q s₁ := hname.step hs
  have hopened : s₁.Opened (parent.child n) := opened_child (opened_mono hstep₁.toLeads hs.here) hname.spent
  have hlower : startsUppercase n = false := startsUppercase_counted (by decide)
  have hinner : IsInner parent n := ⟨hs.rooted, .inr hlower⟩
  have hlocal : (parent.child n).IsLocal :=
    ⟨Namespace.child_ne_global hs.rooted, Namespace.className?_child_of_lower hlower⟩
  have hempty : s.context.scope (parent.child n) = .empty :=
    by_contra fun hne => not_opened_child hname.unspent (hs.opened _ hne)
  have henter : s₁.CanEnter { s₁.frame.enter (parent.child n) with
      captureRoot := some (parent.child n), inValueBranch := false, inFuncBody := true } :=
    { rooted := Namespace.head?_child hs.rooted
      opened := hopened
      body := fun _ => ⟨hlocal.className?_eq, fun r hr => by cases hr; exact Namespace.isWithin_refl _⟩
      root := fun h => (h.elim hlocal.ne_global (· hlocal.className?_eq)).elim }
  refine Ensures.seq (R := Step (.opening (parent.child n))) (Q := fun l s' => s'.LambdaMade parent n
      (s.frame.depth + 1) (s.language.functionType params ret) samTarget l)
    (.inOtherScope hstep₁.sound henter (allows_refl _ _) (fun _ h => Namespace.ne_child (Namespace.isWithin_refl _) h)
      fun s₀ heq hs₀ => ?_) fun l s₂ h₂ hl => ?_
  · subst heq
    exact (lambdaBody_ensures hs₀ ⟨rfl, rfl, ⟨rfl, fun _ => rfl⟩, hlocal, hinner⟩
      (Served.withFrame (he.step hstep₁) le_rfl) hparams hret
      (Language.formed_functionType (fun t ht => (hparams t ht).formed) hret.formed)
      (fun t ht => (hsam t ht).1.formed) (congrArg Bindings.decls hempty)).mono
      fun l s' _ hl => hl.withFrame
  have hstep₂ : s.Step Q s₂ := hstep₁.trans (h₂.relax ⟨fun _ _ _ h => .inl h, fun _ _ h => .inl h, nofun⟩)
  have hfree : ¬s₂.Taken n := fun ht => (h₂.taken n hname.spent ht).elim (hname.not_taken hs) False.elim
  have hnames : ∀ x ∈ (Decl.lambda l).names, x = n := fun x hx => (List.mem_singleton.mp hx).trans hl.name
  have hregisters : Registers Q s₂ (s₂.withContext (s₂.context.push parent (.lambda l))) parent (.lambda l) :=
    { scopes := fun _ => rfl
      kind := nofun
      member := fun _ => ⟨l, rfl⟩
      field := nofun
      welcome := welcomes_of_fresh (fun x hx => by rw [hnames x hx]; exact hfree) hl.types nofun
      opened := fun x hx => spent_withContext.mpr (opened_mono hstep₂.toLeads hs.here x hx)
      spent := fun x hx => by
        rw [hnames x hx]
        exact spent_withContext.mpr (h₂.spent n hname.spent)
      permitted := hP.imp_right fun h => .inl (.inr ⟨rfl, h⟩)
      taken := fun x hx _ => by
        rw [hnames x hx]
        exact .inr (.inl hname.unspent)
      mutables := nofun
      params := nofun
      top := fun hglobal => hglobal ▸ hl.fits none
      shapes := hl.shapes
      here := fun _ _ _ hne => absurd rfl (hne l) }
  refine (addDecl_step h₂.sound hregisters).seq fun _ s₃ h₃ _ => .pure (hstep₂.trans h₃) ⟨?_, ?_⟩
  · have hframe : s₃.frame = s.frame := h₃.frame.trans hstep₂.frame
    have hstands : s₂.Stands noTargets (bodyDepth s₂.maxDepth (s.frame.depth + 1) + 1) (.lambda l) := by
      refine stands_lambda ?_ hl.shapes hl.types (fun t ht s' hl' => ?_) hl.depth
      · rw [hstep₂.frame]
        exact hl.fits _
      · rw [hl.samTarget] at ht
        rw [hl.signature]
        exact (hsam t ht).2 s' (hstep₂.toLeads.trans hl')
    have hlimit : s₂.maxDepth = s.maxDepth := congrArg (·.limits.maxDepth) hstep₂.config
    exact hlimit ▸ hstands.step h₃
  · show some (l.samTarget.getD l.signature) = _
    rw [hl.samTarget, hl.signature]

end Gen

end ProgramGen

import ProgramGen.Proofs.Run.Stages
import ProgramGen.Proofs.Typing.Engine

/-!
# Typed functions

A function states types over the session, and the result type that it is asked for. Type parameters
that its signature does not mention are replaced in what is left, so the signature stays what it
was.
-/

namespace ProgramGen

variable {s s' : Session} {t u : Ty} {e : Engine} {m : Subst} {p : TypeParam} {ns : Namespace}
variable {ps : List TypeParam} {params : List ParamDecl} {ret : Ty} {l : Language} {V : Vocabulary}

/-! ## Unused type parameters -/

theorem Subst.over_unusedTypeParams (hps : ∀ p ∈ ps, (Ty.param p).Over V) (hl : V.languages l) :
    (unusedTypeParams l ps params ret).Over V := by
  refine .ofList fun x hx => ?_
  obtain ⟨p, hp, rfl⟩ := List.mem_map.mp hx
  cases hb : p.effectiveBound with
  | none => exact Ty.over_builtin hl .any
  | some b => exact TypeParam.over_effectiveBound (hps p (List.mem_of_mem_filter hp)) hb

theorem TypeParam.over_subst (hp : (Ty.param p).Over V) (hm : m.Over V) :
    (Ty.param (p.subst m)).Over V := by
  have h := hm.subst hp
  unfold TypeParam.subst
  split
  · exact ‹_ = Ty.param _› ▸ h
  · exact hp

/-! ## Signatures -/

/-- All types of a signature are over the vocabulary. -/
structure Signature.Over (V : Vocabulary) (sig : Signature) : Prop where
  typeParams : ∀ p ∈ sig.typeParams, (Ty.param p).Over V
  params : ∀ p ∈ sig.params, p.ty.Over V
  ret : sig.ret.Over V

namespace Gen

theorem removeTypes_typed (ps : List TypeParam) (s : Session) :
    s.Typed (s.withContext (ps.foldl (fun c p => c.removeType ns p.name) s.context)) := by
  induction ps generalizing s with
  | nil => exact refl_of Session.Typed s
  | cons p ps ih => exact trans_of Session.Typed Session.typed_removeType (ih _)

/-- Type parameters that the signature does not use are dropped. -/
theorem pruneTypeParams_typed {sig : Signature} (hs : s.WellTyped) (hns : ¬s.Reserved ns)
    (hsig : sig.Over s.vocabulary) :
    (pruneTypeParams ns sig).Yields Session.Typed s fun sig' s' =>
      sig'.Over s'.vocabulary ∧ sig'.ret = sig.ret := by
  unfold pruneTypeParams
  refine .get ?_
  extract_lets m kept
  have hm : m.Over s.vocabulary := Subst.over_unusedTypeParams hsig.typeParams rfl
  split
  · exact .pure ⟨hsig, rfl⟩
  · refine Yields.bind (Q := fun _ _ => True) (.modifyContext (removeTypes_typed _ s) trivial)
      fun _ s₁ h₁ _ => ?_
    obtain ⟨hgrows₁, hs₁⟩ := h₁ hs
    have hkept : ∀ p ∈ kept, (Ty.param p).Over s.vocabulary := by
      intro p hp
      obtain ⟨q, hq, rfl⟩ := List.mem_map.mp hp
      exact TypeParam.over_subst (hsig.typeParams q (List.mem_of_mem_filter hq)) hm
    refine (addTypes_typed hs₁ (fun h => hns (hgrows₁.reserved h)) fun p hp =>
      hgrows₁.over (hkept p hp)).bind fun _ s₂ h₂ _ => ?_
    have hover : ∀ t : Ty, t.Over s.vocabulary → t.Over s₂.vocabulary := fun t ht =>
      (h₂ hs₁).1.over (hgrows₁.over ht)
    refine .pure ⟨⟨fun p hp => hover _ (hkept p hp), fun p hp => ?_, ?_⟩, ?_⟩
    · obtain ⟨q, hq, rfl⟩ := List.mem_map.mp hp
      exact hover _ (hm.subst (hsig.params q hq))
    · exact hover _ (hm.subst hsig.ret)
    · exact subst_unusedTypeParams

/-! ## Parameters and return type -/

theorem genParam_typed (hs : s.WellTyped) :
    (genParam none).Yields Session.Typed s fun p s' => p.ty.Over s'.vocabulary := by
  unfold genParam
  extract_lets named
  have hnamed : ∀ (s' : Session) (t : Ty), s'.WellTyped → t.Over s'.vocabulary →
      (named t).Yields Session.Typed s' fun p s'' => p.ty.Over s''.vocabulary := fun s' t hs' ht =>
    (word_typed hs').bind fun w s'' h' _ => .pure ((h' hs').1.over ht)
  refine (Yields.of_onlyDraws (selectType_typed hs)).bind fun t s₁ h₁ ht => ?_
  obtain ⟨⟨stream, rfl⟩, ht, -⟩ := ht
  exact hnamed _ t (hs.atStream stream) ht

/-- The parameters of a new function, and the values that they have by default. -/
theorem genParams_typed {parent : Namespace} {withDefaults started : Bool} {n : Nat} (he : e.Sound)
    (hs : s.WellTyped) (hparent : parent.segments ≠ []) :
    (genParams e parent withDefaults n started).Yields Session.Typed s fun ps s' =>
      ∀ p ∈ ps, p.ty.Over s'.vocabulary := by
  induction n generalizing s started with
  | zero => exact .pure (by simp)
  | succ n ih =>
    rw [genParams]
    refine (genParam_typed hs).bind fun p s₁ h₁ hp => ?_
    refine (Yields.onlyIf ?_).bind fun hasDefault s₂ h₂ _ => ?_
    · split
      · exact .pure trivial
      · exact .coin
    obtain ⟨-, hs₁⟩ := h₁ hs
    obtain ⟨hgrows₂, hs₂⟩ := h₂ hs₁
    have hp₂ := hgrows₂.over hp
    extract_lets rest
    have hrest : ∀ (s' : Session) (value : Option Expr), s₂.Typed s' →
        (rest value).Yields Session.Typed s' fun ps s'' => ∀ p ∈ ps, p.ty.Over s''.vocabulary := by
      intro s' value h'
      obtain ⟨hgrows', hs'⟩ := h' hs₂
      refine (ih hs').bind fun ps s'' h'' hps => .pure (List.forall_mem_cons.mpr ⟨?_, hps⟩)
      exact (h'' hs').1.over (hgrows'.over hp₂)
    split
    · refine (Yields.map (P := fun _ _ => True) (inFrame_typed hs₂ hparent
        fun s₃ _ hs₃ hv => ?_)).bind fun value s₃ h₃ _ => hrest s₃ value h₃
      exact (he.expr hs₃ (hv ▸ hp₂)).mono fun _ _ _ _ => trivial
    · exact .pass (hrest s₂ none (refl_of _ _))

theorem genFuncParams_typed {parent : Namespace} {isInterface : Bool} (he : e.Sound)
    (hs : s.WellTyped) (hparent : parent.segments ≠ []) :
    (genFuncParams e parent isInterface).Yields Session.Typed s fun ps s' =>
      ∀ p ∈ ps, p.ty.Over s'.vocabulary := by
  unfold genFuncParams
  refine (Yields.onlyIf Yields.chance).bind fun withDefaults s₁ h₁ _ => .get ?_
  refine Yields.sizeBetween.bind fun n s₂ h₂ _ => ?_
  exact genParams_typed he (h₂ (h₁ hs).2).2 hparent

theorem genReturnType_typed {notVoid : Bool} (hs : s.WellTyped)
    (hparams : ∀ p ∈ params, p.ty.Over s.vocabulary) :
    (genReturnType params notVoid).Yields Session.OnlyDraws s fun t _ => t.Over s.vocabulary := by
  unfold genReturnType
  extract_lets types other
  have hother : ∀ stream, other.Yields Session.OnlyDraws (s.atStream stream) fun t _ =>
      t.Over s.vocabulary := fun stream =>
    (selectType_typed (hs.atStream stream)).mono fun t _ _ ht => ht.1
  refine (Yields.onlyIf Yields.chance).bind fun fromParams s₁ h₁ _ => ?_
  obtain ⟨stream₁, rfl⟩ := h₁
  split
  · refine Yields.pick.bind fun chosen s₂ h₂ hchosen => ?_
    obtain ⟨stream₂, rfl⟩ := h₂
    split
    · refine .pure ?_
      obtain ⟨p, hp, rfl⟩ := List.mem_map.mp (List.mem_of_mem_filter (hchosen _ rfl))
      exact hparams p hp
    · exact hother stream₂
  · exact hother stream₁

/-! ## Declarations -/

theorem genFuncTypeParams_typed {kind : FuncKind} {given : Option (List TypeParam)}
    (hs : s.WellTyped) (hframe : s.frame.ns = ns) (hns : ¬s.Reserved ns)
    (hgiven : ∀ ps ∈ given, ∀ p ∈ ps, (Ty.param p).Over s.vocabulary) :
    (genFuncTypeParams ns kind given).Yields Session.Typed s fun ps s' =>
      ∀ p ∈ ps, (Ty.param p).Over s'.vocabulary := by
  unfold genFuncTypeParams
  split
  · exact .pure (by simp)
  · rename_i ps _
    have hps := hgiven ps rfl
    refine (addTypes_typed hs hns hps).bind fun _ s₁ h₁ _ => .pure fun p hp => ?_
    exact (h₁ hs).1.over (hps p hp)
  · refine Yields.bind (Yields.of_onlyDraws Yields.chance) fun generic s₁ _ h₁ => ?_
    obtain ⟨⟨stream, rfl⟩, -⟩ := h₁
    split
    · obtain ⟨before, hbefore⟩ := s.exists_seenNames
      refine .get ((genTypeParams_typed (hs.atStream stream) ?_ hbefore).mono
        fun ps s₂ _ hps => hps.2.1)
      exact hframe ▸ hns
    · exact .pure (by simp)

end Gen

/-- All types that are asked of a function are over the vocabulary. -/
structure FuncSpec.Over (V : Vocabulary) (spec : FuncSpec) : Prop where
  ret : ∀ t ∈ spec.ret, t.Over V
  params : ∀ ps ∈ spec.params, ∀ p ∈ ps, p.ty.Over V
  typeParams : ∀ ps ∈ spec.typeParams, ∀ p ∈ ps, (Ty.param p).Over V

/-- A function can be declared as it is asked for: its scope can hold type parameters. -/
structure FuncSpec.Stated (s : Session) (spec : FuncSpec) : Prop where
  types_over : spec.Over s.vocabulary
  rooted : ∀ ns ∈ spec.ns, ns.segments ≠ []
  name : ∀ n ∈ spec.name, ¬s.Reserved ((spec.ns.getD s.frame.ns).child n)

theorem FuncSpec.Over.of_grows {spec : FuncSpec} (h : spec.Over s.vocabulary)
    (hgrows : s.Grows s') : spec.Over s'.vocabulary where
  ret t ht := hgrows.over (h.ret t ht)
  params ps hps p hp := hgrows.over (h.params ps hps p hp)
  typeParams ps hps p hp := hgrows.over (h.typeParams ps hps p hp)

theorem FuncSpec.Stated.of_grows {spec : FuncSpec} (h : spec.Stated s) (hgrows : s.Grows s') :
    spec.Stated s' where
  types_over := h.types_over.of_grows hgrows
  rooted := h.rooted
  name n hn hreserved := h.name n hn (hgrows.frame ▸ hgrows.reserved hreserved)

theorem FuncSpec.Stated.parent {spec : FuncSpec} (h : spec.Stated s) (hs : s.WellTyped) :
    (spec.ns.getD s.frame.ns).segments ≠ [] := by
  cases hns : spec.ns with
  | none => exact hs.rooted
  | some ns => exact h.rooted ns hns

/-- The scope of a name in lowercase can hold type parameters. -/
theorem Session.WellTyped.not_reserved_of_startsLower {w : String} (hs : s.WellTyped)
    (hns : ns.segments ≠ []) (hw : StartsLower w) : ¬s.Reserved (ns.child w) := by
  rintro (h | ⟨v, hv, h⟩)
  · have hlength := congrArg (·.segments.length) h
    simp [Namespace.child, Namespace.global, hns] at hlength
  · have hlast := congrArg (·.segments.getLast?) h
    simp only [Namespace.child, List.getLast?_append, List.getLast?_singleton, Option.some_or,
      Option.some.injEq] at hlast
    exact not_startsLower_capitalize (hv.startsLower hs.pool) (hlast ▸ hw)

namespace Gen

variable {spec : FuncSpec}

theorem funcName_typed (hs : s.WellTyped) (hspec : spec.Stated s) :
    (funcName spec).Yields Session.Typed s fun n s' =>
      ¬s'.Reserved ((spec.ns.getD s.frame.ns).child n) := by
  unfold funcName
  split
  · exact .pure (hspec.name _ ‹_›)
  · refine (word_typed hs).mono fun w s' h' ⟨hw, _, _⟩ => ?_
    exact (h' hs).2.not_reserved_of_startsLower (hspec.parent hs) (hw.startsLower hs.pool)

theorem funcCanOverride_yields {kind : FuncKind} :
    (funcCanOverride spec kind).Yields Session.OnlyDraws s fun _ _ => True := by
  unfold funcCanOverride
  split
  · exact .pure trivial
  · exact (Yields.onlyIf Yields.coin).mono fun _ _ _ _ => trivial

theorem funcHasBody_yields : (funcHasBody spec).Yields Session.OnlyDraws s fun _ _ => True := by
  unfold funcHasBody
  split
  · exact .pure trivial
  · exact (Yields.onlyIf Yields.chance).bind fun _ _ _ _ => .pure trivial

theorem funcParams_typed (he : e.Sound) (hs : s.WellTyped) (hspec : spec.Over s.vocabulary)
    {parent : Namespace} (hparent : parent.segments ≠ []) :
    (funcParams e parent spec).Yields Session.Typed s fun ps s' =>
      ∀ p ∈ ps, p.ty.Over s'.vocabulary := by
  unfold funcParams
  split
  · exact .pure (hspec.params _ ‹_›)
  · exact genFuncParams_typed he hs hparent

theorem funcReturnType_typed (hs : s.WellTyped) (hspec : spec.Over s.vocabulary)
    (hparams : ∀ p ∈ params, p.ty.Over s.vocabulary) :
    (funcReturnType spec params).Yields Session.OnlyDraws s fun t _ =>
      t.Over s.vocabulary ∧ ∀ u ∈ spec.ret, t = u := by
  unfold funcReturnType
  split
  · rename_i t ht
    refine .pure ⟨hspec.ret t ht, fun u hu => ?_⟩
    rw [ht] at hu
    exact Option.some.inj hu
  · rename_i hnone
    refine (genReturnType_typed hs hparams).mono fun t _ _ ht => ⟨ht, fun u hu => ?_⟩
    rw [hnone] at hu
    cases hu

/-- A function is registered and completed as it is stated. -/
theorem declareFunc_typed {parent : Namespace} {hasBody : Bool} {f : FuncDecl} (he : e.Sound)
    (hs : s.WellTyped) (hf : ∀ t ∈ f.types, t.Over s.vocabulary) :
    (declareFunc e parent ns hasBody f).Yields Session.Typed s fun g s' =>
      (∀ t ∈ g.types, t.Over s'.vocabulary) ∧ g.ret = f.ret := by
  unfold declareFunc
  refine (attach_typed (d := .func f) hs (by simp [Decl.kind]) hf).bind fun _ s₁ h₁ _ => ?_
  obtain ⟨hgrows₁, hs₁⟩ := h₁ hs
  refine (Yields.forM fun p hp s₂ h₂ => addVar_typed fun t ht => ?_).bind fun _ s₂ h₂ _ => ?_
  · rw [List.mem_singleton.mp ht]
    refine (h₂ hs₁).1.over (hgrows₁.over (hf _ ?_))
    exact List.mem_append_left _ (List.mem_cons_of_mem _ (List.mem_map_of_mem hp))
  obtain ⟨hgrows₂, hs₂⟩ := h₂ hs₁
  have hf₂ : ∀ t ∈ f.types, t.Over s₂.vocabulary := fun t ht => hgrows₂.over (hgrows₁.over (hf t ht))
  split
  · refine (inFrame_typed (Q := fun _ _ => True) hs₂ hs₂.rooted fun s₃ _ hs₃ hv => ?_).bind
      fun body s₃ h₃ _ => ?_
    · exact he.body hs₃ (hv ▸ hf₂ _ List.mem_cons_self)
    obtain ⟨hgrows₃, hs₃⟩ := h₃ hs₂
    have hf₃ : ∀ t ∈ f.types, t.Over s₃.vocabulary := fun t ht => hgrows₃.over (hf₂ t ht)
    refine (updateFunc_typed (f := { f with body := some body }) hs₃ hf₃).bind fun _ s₄ h₄ _ => ?_
    exact .pure ⟨fun t ht => (h₄ hs₃).1.over (hf₃ t ht), rfl⟩
  · exact .pure ⟨hf₂, rfl⟩

theorem genFuncInside_typed {parent : Namespace} {name : String} (he : e.Sound) (hs : s.WellTyped)
    (hspec : spec.Over s.vocabulary) (hparent : parent.segments ≠ [])
    (hframe : s.frame.ns = parent.child name)
    (hns : ¬s.Reserved (parent.child name)) :
    (genFuncInside e spec parent name).Yields Session.Typed s fun f s' =>
      (∀ t ∈ f.types, t.Over s'.vocabulary) ∧ ∀ t ∈ spec.ret, f.ret = t := by
  unfold genFuncInside
  extract_lets kind ns
  refine .get ?_
  extract_lets l
  refine Yields.bind (Yields.of_onlyDraws funcCanOverride_yields) fun canOverride s₁ _ h₁ => ?_
  obtain ⟨⟨stream, rfl⟩, -⟩ := h₁
  have hs₁ := hs.atStream stream
  refine (genFuncTypeParams_typed hs₁ hframe hns hspec.typeParams).bind fun typeParams s₂ h₂ htps => ?_
  obtain ⟨hgrows₂, hs₂⟩ := h₂ hs₁
  have hspec₂ : spec.Over s₂.vocabulary := .of_grows (s := s.atStream stream) hspec hgrows₂
  refine (funcParams_typed he hs₂ hspec₂ hparent).bind fun params s₃ h₃ hparams => ?_
  obtain ⟨hgrows₃, hs₃⟩ := h₃ hs₂
  refine Yields.bind (Yields.of_onlyDraws (funcReturnType_typed hs₃ (hspec₂.of_grows hgrows₃) hparams))
    fun ret s₄ _ h₄ => ?_
  obtain ⟨⟨stream₄, rfl⟩, hret, hasked⟩ := h₄
  refine Yields.bind (Yields.of_onlyDraws funcHasBody_yields) fun hasBody s₅ _ h₅ => ?_
  obtain ⟨⟨stream₅, rfl⟩, -⟩ := h₅
  have hs₅ := (hs₃.atStream stream₄).atStream stream₅
  -- The parts of the signature, made one after another, are well formed together before anything is
  -- pruned from it.
  have hsig : Signature.Over s₃.vocabulary ⟨typeParams, params, ret⟩ :=
    ⟨fun p hp => hgrows₃.over (htps p hp), hparams, hret⟩
  have hns₅ : ¬s₃.Reserved ns := fun h => hns (hgrows₂.reserved (hgrows₃.reserved h))
  refine (pruneTypeParams_typed hs₅ hns₅ hsig).bind fun sig s₆ h₆ ⟨hsig', hkept⟩ => ?_
  refine (declareFunc_typed he (h₆ hs₅).2 fun t ht => ?_).mono fun f s₇ _ ⟨hf, hfret⟩ => ?_
  · simp only [FuncDecl.types, FuncDecl.paramTypes, List.mem_append, List.mem_cons, List.mem_map] at ht
    rcases ht with (rfl | ⟨p, hp, rfl⟩) | ⟨p, hp, rfl⟩
    · exact hsig'.ret
    · exact hsig'.params p hp
    · exact hsig'.typeParams p hp
  · exact ⟨hf, fun t ht => hfret.trans (hkept.trans (hasked t ht))⟩

/-- **A function returns the type that is asked for.** -/
theorem genFuncDecl_typed (he : e.Sound) (hs : s.WellTyped) (hspec : spec.Stated s) :
    (genFuncDecl e spec).Yields Session.Typed s fun f s' =>
      (∀ t ∈ f.types, t.Over s'.vocabulary) ∧ ∀ t ∈ spec.ret, f.ret = t := by
  rw [genFuncDecl_eq]
  refine (funcName_typed hs hspec).bind fun name s₁ h₁ hname => .get ?_
  obtain ⟨hgrows, hs₁⟩ := h₁ hs
  extract_lets parent
  have hparent : parent.segments ≠ [] := by
    show (spec.ns.getD s₁.frame.ns).segments ≠ []
    rw [hgrows.frame]
    exact hspec.parent hs
  have hns : ¬s₁.Reserved (parent.child name) := by
    rw [← hgrows.frame] at hname
    exact hname
  have hspec₁ : spec.Over s₁.vocabulary := hspec.types_over.of_grows hgrows
  refine inFrame_typed hs₁ (by simp [Frame.enterFunc, Frame.enter, Namespace.child])
    fun s₂ heq hs₂ hv => ?_
  subst heq
  exact genFuncInside_typed he hs₂ hspec₁ hparent rfl hns

end Gen

end ProgramGen

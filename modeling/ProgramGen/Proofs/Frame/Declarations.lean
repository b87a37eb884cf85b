import ProgramGen.Proofs.Frame.Steps
import ProgramGen.Proofs.Run.Stages

/-!
# Declarations restore what is scoped

Types are chosen by draws alone, apart from type parameters that are registered. Variables, functions
and classes are declared in scopes of their own, and are left as they were entered, for every engine
whose entries do the same.

A relation `R` that the entries keep to besides is kept to in those scopes, which are deeper than the
scope of the declaration. There it is `Q` that is kept to, which may say more. And classes grow, if that is
asked for by `G`, as long as members are attached inside the global scope.
-/

namespace ProgramGen

open Session

/-- The entries of the engine restore what is scoped and keep to `R`; leaves and new values, all of
whose parts are deeper, keep to `Q`. -/
structure Engine.Keeps (G : Prop) (R Q : Session → Session → Prop) (e : Engine) : Prop where
  expr : ∀ t o, (e.expr t o).Always (Session.Keeps G R)
  leaf : ∀ t o, o.onlyLeaves = true → (e.expr t o).Always (Session.Keeps G Q)
  body : ∀ t, (e.body t).Always (Session.Keeps G R)
  new : ∀ t sam, (e.new t sam).Always (Session.Keeps G Q)

variable {G : Prop} {R Q : Session → Session → Prop} [Oblivious R] [Oblivious Q] [Encloses R Q]
variable {α : Type} {s : Session} {e : Engine} {ns : Namespace} {t : Ty} {o : TypeOpts} {c : TypeCtor}
variable {m : Subst} {type : Option Ty} {init : Option Expr} {b : Bool} {f : FuncDecl} {spec : FuncSpec}
variable {k : ClassKind} {n : Nat}

-- All parts are taken to keep to the same two relations, whether or not they need both.
set_option linter.unusedSectionVars false

/-- Less is asked for. -/
theorem Engine.Keeps.weaken {G' : Prop} (h : e.Keeps G R Q) (hG : G' → G) : e.Keeps G' R Q :=
  have hkeeps : ∀ {R : Session → Session → Prop}, Subrelation (Session.Keeps G R) (Session.Keeps G' R) :=
    fun hk => ⟨hk.restores, hk.also, fun hG' => hk.grows (hG hG')⟩
  ⟨fun t o => .imp hkeeps (h.expr t o), fun t o ho => .imp hkeeps (h.leaf t o ho), fun t => .imp hkeeps (h.body t),
    fun t sam => .imp hkeeps (h.new t sam)⟩

namespace Gen

open Always

/-- What is done in the current scope. Outside the global one nothing is said of classes. -/
theorem inScope {x : Gen α} (he : e.Keeps G R Q)
    (h : ∀ {G' : Prop} (s : Session), (G' → G) → e.Keeps G' R Q → (G' → s.frame.ns.isWithin .global) →
      s.Keeps G' Q (x.runIn s).2) : x.Always (Keeps G Q) := fun s => by
  by_cases hns : G → s.frame.ns.isWithin .global
  · exact h s id he hns
  · have hrun : s.Keeps False Q (x.runIn s).2 := h s nofun (he.weaken nofun) nofun
    exact ⟨hrun.restores, hrun.also, fun _ hwithin => (hns fun _ => hwithin).elim⟩

/-- The current scope is read. -/
theorem getScope {f : Session → Gen α} (he : e.Keeps G R Q)
    (h : ∀ {G' : Prop} (s : Session), e.Keeps G' R Q → (G' → s.frame.ns.isWithin .global) → (f s).Always (Keeps G' Q)) :
    (get >>= f).Always (Keeps G Q) :=
  inScope he fun s _ he hs => h s he hs s

/-! ## Types -/

theorem candidateTypes_keeps : (candidateTypes o).Always (Keeps G R) := by
  unfold candidateTypes
  refine .get fun s => .bind (.onlyIf .chance) fun _ => ?_
  split <;> exact .pure

theorem instantiate_keeps : (instantiate c m).Always (Keeps G R) := by
  unfold instantiate
  exact .get fun s => .bind candidateTypes_keeps fun _ => .rand

theorem instantiateOrTop_keeps : (instantiateOrTop c).Always (Keeps G R) := by
  unfold instantiateOrTop
  refine .bind instantiate_keeps fun r => ?_
  split
  · exact .pure
  · exact .get fun _ => .pure

theorem selectType_keeps : (selectType o).Always (Keeps G R) := by
  unfold selectType
  refine .bind candidateTypes_keeps fun _ => .bind .pick fun r => ?_
  split
  · exact .get fun _ => .throw
  · exact instantiateOrTop_keeps
  · exact .pure

theorem concretize_keeps : (concretize t).Always (Keeps G R) := by
  unfold concretize
  refine .get fun s => ?_
  split
  · exact instantiateOrTop_keeps
  · exact .pure
  · split <;> exact .pure
  · exact .pure

theorem narrow_keeps : (narrow t).Always (Keeps G R) := by
  unfold narrow
  refine .get fun s => .bind .pick fun r => ?_
  split
  · refine .bind instantiate_keeps fun r => ?_
    split <;> exact .pure
  · exact .pure
  · exact .pure

theorem randomVariance_keeps : (randomVariance b).Always (Keeps G R) := by
  unfold randomVariance
  refine .bind (.onlyIf .coin) fun _ => ?_
  split
  · refine .bind .coin fun _ => ?_
    split <;> exact .pure
  · exact .pure

theorem randomBound_keeps : randomBound.Always (Keeps G R) := by
  unfold randomBound
  refine .bind .chance fun _ => ?_
  split
  · exact .bind selectType_keeps fun _ => .pure
  · exact .pure

theorem freshTypeParams_keeps {withVariance forFunc : Bool} {n : Nat} {taken : List String} :
    (freshTypeParams withVariance forFunc n taken).Always (Keeps G R) := by
  induction n generalizing taken with
  | zero => exact .pure
  | succ n ih =>
    unfold freshTypeParams
    refine .bind .rand fun letter => ?_
    split
    · exact .pure
    · exact .bind randomVariance_keeps fun _ => .bind randomBound_keeps fun _ => .get fun _ =>
        .bind addType_keeps fun _ => .bind ih fun _ => .pure

theorem genTypeParams_keeps {count : Option Nat} {withVariance forFunc : Bool} {taken : List String} :
    (genTypeParams count withVariance taken forFunc).Always (Keeps G R) := by
  unfold genTypeParams
  refine .bind (.onlyIf .coin) fun _ => ?_
  split
  · exact .pure
  · exact .get fun s => .bind .sizeBetween fun _ => freshTypeParams_keeps

theorem addTypes_keeps {ps : List TypeParam} : (ps.forM (addType ns)).Always (Keeps G R) :=
  .forM fun _ _ => addType_keeps

/-! ## Variables -/

theorem variableType_keeps : (variableType type).Always (Keeps G R) := by
  unfold variableType
  have hrest : ∀ t : Ty, Always (Keeps G R) (if t.isWildcard then concretize t else Pure.pure t) := by
    intro t
    split
    · exact concretize_keeps
    · exact .pure
  split
  · exact .pass (hrest _)
  · exact .bind selectType_keeps hrest

theorem variableInit_keeps (he : e.Keeps G R Q) : (variableInit e ns t b init).Always (Keeps G Q) := by
  unfold variableInit
  split
  · exact .pure
  · exact .deeper (fun f => f.depth.lt_succ_self) (fun _ _ => id) (he.expr _ _)

/-- **A variable is declared under the name that is drawn for it.** -/
theorem genVariableDecl_keeps (he : e.Keeps G R Q) : (genVariableDecl e type b init).Always (Keeps G Q) := by
  rw [genVariableDecl_eq]
  refine .bind variableType_keeps fun t => .get fun s => .bind (variableInit_keeps he) fun value =>
    .bind .coin fun isFinal => .bind .coin fun _ => declare_keeps fun w => rfl

/-- An expression as a statement may become the initializer of a variable. -/
theorem asStatement_keeps (he : e.Keeps G R Q) {a : Expr} : (asStatement e a).Always (Keeps G Q) := by
  unfold asStatement
  split
  on_goal 7 =>
    split
    · exact .pure
    · split
      · exact .pure
      · exact .bind (genVariableDecl_keeps he) fun _ => .pure
  all_goals exact .pure

/-- Where no variable fits, an expression is asked for that is none. -/
theorem genVariable_keeps {o : ExprOpts} (h : (e.expr t { o with excludeVar := true }).Always (Keeps G R)) :
    (genVariable e t o).Always (Keeps G R) := by
  unfold genVariable
  refine .get fun s => .bind .pick fun r => ?_
  split
  · exact .pure
  · exact h

/-! ## Functions -/

theorem pruneTypeParams_yields {sig : Signature} :
    (pruneTypeParams ns sig).Yields (Keeps G R) s fun sig' _ => sig'.ret = sig.ret := by
  unfold pruneTypeParams
  refine .get ?_
  extract_lets m
  split
  · exact .pure rfl
  · exact (removeTypes_keeps.yields s).bind fun _ s₁ _ _ => (addTypes_keeps.yields s₁).bind fun _ _ _ _ =>
      .pure subst_unusedTypeParams

theorem genParam_keeps : (genParam type).Always (Keeps G R) := by
  unfold genParam
  split
  · exact .get fun _ => .pass (.bind word_keeps fun _ => .pure)
  · exact .pass (.bind word_keeps fun _ => .pure)
  · exact .bind selectType_keeps fun _ => .bind word_keeps fun _ => .pure

theorem genParams_keeps (he : e.Keeps G R Q) (hns : G → ns.isWithin .global) {withDefaults started : Bool} :
    (genParams e ns withDefaults n started).Always (Keeps G R) := by
  induction n generalizing started with
  | zero => exact .pure
  | succ n ih =>
    unfold genParams
    refine .bind genParam_keeps fun p => .bind (.onlyIf ?_) fun hasDefault => ?_
    · split
      · exact .pure
      · exact .coin
    · split
      · exact .bind (.map (.inFrame (fun f => f.depth.le_refl) (fun hG _ _ => hns hG) (he.expr _ _)))
          fun _ => .bind ih fun _ => .pure
      · exact .pass (.bind ih fun _ => .pure)

theorem genFuncParams_keeps (he : e.Keeps G R Q) (hns : G → ns.isWithin .global) :
    (genFuncParams e ns b).Always (Keeps G R) := by
  unfold genFuncParams
  exact .bind (.onlyIf .chance) fun _ => .get fun _ => .bind .sizeBetween fun _ => genParams_keeps he hns

theorem genReturnType_keeps {params : List ParamDecl} : (genReturnType params b).Always (Keeps G R) := by
  unfold genReturnType
  refine .bind (.onlyIf .chance) fun _ => ?_
  split
  · refine .bind .pick fun r => ?_
    split
    · exact .pure
    · exact selectType_keeps
  · exact selectType_keeps

theorem genFuncTypeParams_keeps {kind : FuncKind} {given : Option (List TypeParam)} :
    (genFuncTypeParams ns kind given).Always (Keeps G R) := by
  unfold genFuncTypeParams
  split
  · exact .pure
  · exact .bind addTypes_keeps fun _ => .pure
  · refine .bind .chance fun _ => ?_
    split
    · exact .get fun _ => genTypeParams_keeps
    · exact .pure

/-- **A function is registered, and completed with its body**: its class has gained it. -/
theorem declareFunc_yields (he : e.Keeps G R Q) {parent : Namespace} (hparent : G → parent.isWithin .global)
    (hbody : b → f.body.isSome) :
    (declareFunc e parent ns b f).Yields (Keeps G R) s fun f' s' => f'.ret = f.ret ∧
      (G → s.frame.ns.isWithin .global → s.Gains parent (.func f') s') := by
  have hinside : (inFrame (fun frame => { frame with inFuncBody := true }) (e.body f.ret)).Always (Keeps G R) :=
    .inFrame (fun f => f.depth.le_refl) (fun _ _ => id) (he.body _)
  unfold declareFunc
  refine (attach_yields rfl hparent).seq fun _ s₁ h₁ hgains => ?_
  refine ((Always.forM fun _ _ => addParam_keeps).after h₁).seq fun _ s₂ h₂ h₁₂ => ?_
  have hgains₂ : G → s.frame.ns.isWithin .global → s.Gains parent (.func f) s₂ := fun hG hs =>
    (hgains hG).kept h₁ h₁₂ hG hs
  split
  · refine (hinside.after h₂).seq fun body s₃ h₃ h₂₃ => ?_
    -- What is registered has a body already, which is replaced.
    have houtline : (Decl.func { f with body := some body }).outline = (Decl.func f).outline := by
      obtain ⟨body', hbody'⟩ := Option.isSome_iff_exists.mp (hbody ‹_›)
      simp only [Decl.outline, hbody', Option.map_some]
    refine (updateFunc_yields (f := { f with body := some body }) h₃ hparent fun hG hs => ?_).seq
      fun _ s₄ h₄ hgains₄ => ⟨h₄, fun _ h => ?_⟩
    · exact ((hgains₂ hG hs).kept h₂ h₂₃ hG hs).of_outline houtline
    · cases h
      exact ⟨rfl, hgains₄⟩
  · exact ⟨h₂, fun _ h => by cases h; exact ⟨rfl, hgains₂⟩⟩

theorem genFuncInside_yields (he : e.Keeps G R Q) {parent : Namespace} (hparent : G → parent.isWithin .global)
    {name : String} :
    (genFuncInside e spec parent name).Yields (Keeps G R) s fun f s' => (∀ t ∈ spec.ret, f.ret = t) ∧
      (G → s.frame.ns.isWithin .global → s.Gains parent (.func f) s') := by
  have hcanOverride : ∀ kind, (funcCanOverride spec kind).Always (Keeps G R) := by
    intro kind
    unfold funcCanOverride
    split
    · exact .pure
    · exact .onlyIf .coin
  have hparams : (funcParams e parent spec).Always (Keeps G R) := by
    unfold funcParams
    split
    · exact .pure
    · exact genFuncParams_keeps he hparent
  have hret : ∀ params s', (funcReturnType spec params).Yields (Keeps G R) s' fun ret _ => ∀ t ∈ spec.ret, ret = t := by
    intro params s'
    unfold funcReturnType
    split
    · rename_i t hret
      exact .pure fun u hu => Option.some.inj (hret.symm.trans hu)
    · rename_i hret
      exact (genReturnType_keeps.yields s').mono fun _ _ _ _ t ht => by rw [hret] at ht; cases ht
  have hbody : (funcHasBody spec).Always (Keeps G R) := by
    unfold funcHasBody
    split
    · exact .pure
    · exact .bind (.onlyIf .chance) fun _ => .pure
  unfold genFuncInside
  refine .get ((hcanOverride _ |>.yields s).seq fun canOverride s₁ h₁ _ => ?_)
  refine (genFuncTypeParams_keeps.since h₁).seq fun typeParams s₂ h₂ _ => ?_
  refine (hparams.since h₂).seq fun params s₃ h₃ _ => ?_
  refine ((hret params s₃).weaken fun _ => trans_of _ h₃).seq fun ret s₄ h₄ hret₄ => ?_
  refine (hbody.since h₄).seq fun hasBody s₅ h₅ _ => ?_
  refine (pruneTypeParams_yields.weaken fun _ => trans_of _ h₅).seq fun sig s₆ h₆ hsig => ?_
  refine ((declareFunc_yields he hparent fun hb => by rw [if_pos hb]; rfl).weaken fun _ => trans_of _ h₆).mono ?_
  rintro f s' - ⟨hf, hgains⟩
  refine ⟨fun t ht => ?_, fun hG hs => ?_⟩
  · exact hf.trans (hsig.trans (hret₄ t ht))
  · exact (hgains hG (h₆.restores.frame ▸ hs)).since (h₆.grows hG hs)

/-- **A function is declared in a scope of its own.** -/
theorem genFuncDecl_yields (he : e.Keeps G R Q) (hparent : G → (spec.ns.getD s.frame.ns).isWithin .global) :
    (genFuncDecl e spec).Yields (Keeps G Q) s fun f s' => (∀ t ∈ spec.ret, f.ret = t) ∧
      (G → s.frame.ns.isWithin .global → s.Gains (spec.ns.getD s.frame.ns) (.func f) s') := by
  have hname : (funcName spec).Always (Keeps G Q) := by
    unfold funcName
    split
    · exact .pure
    · exact word_keeps
  rw [genFuncDecl_eq]
  refine (hname.yields s).seq fun name s₁ h₁ _ => .get ?_
  rw [h₁.restores.frame]
  have hchild : G → ((spec.ns.getD s.frame.ns).child name).isWithin .global := fun hG =>
    Namespace.child_isWithin (hparent hG)
  refine .inFrame (genFuncInside_yields he hparent) (fun s' h' => ?_) fun f s' _ ⟨hret, hgains⟩ => ⟨hret, fun hG hs => ?_⟩
  · exact trans_of _ h₁ (h'.leave (Nat.lt_succ_self _) fun hG _ => hchild hG)
  · exact (hgains hG (hchild hG)).since (h₁.grows hG hs)

theorem genFuncDecl_keeps (he : e.Keeps G R Q) (hns : G → ∀ ns ∈ spec.ns, ns.isWithin .global) :
    (genFuncDecl e spec).Always (Keeps G Q) :=
  inScope he fun s hG he hs => (genFuncDecl_yields he fun hG' => by
    cases hspec : spec.ns with
    | none => exact hs hG'
    | some ns => exact hns (hG hG') ns hspec).1

theorem genMain_keeps (he : e.Keeps G R Q) : (genMain e).Always (Keeps G Q) := by
  unfold genMain
  exact .get fun _ => .inFrame (fun f => f.depth.le_refl) (fun _ _ => id)
    (genFuncDecl_keeps he fun _ _ hns => by cases hns; exact Namespace.isWithin_refl _)

/-! ## Classes -/

theorem genSuperArgs_keeps (he : e.Keeps G R Q) {d : ClassDecl} : (genSuperArgs e d m).Always (Keeps G R) := by
  unfold genSuperArgs
  exact .inFrame (fun f => f.depth.le_refl) (fun _ _ => id) (.mapM fun _ _ => he.expr _ _)

theorem instantiateClass_keeps {d : ClassDecl} : (instantiateClass d).Always (Keeps G R) := by
  unfold instantiateClass
  split
  · exact instantiate_keeps
  · exact .pure

theorem selectSuperclass_keeps (he : e.Keeps G R Q) : (selectSuperclass e b).Always (Keeps G R) := by
  unfold selectSuperclass
  refine .get fun s => ?_
  extract_lets candidates
  split
  · exact .pure
  · refine .bind .coin fun _ => ?_
    split
    · exact .pure
    · refine .bind .pick fun r => ?_
      split
      · exact .pure
      · refine .bind instantiateClass_keeps fun r => ?_
        split
        · exact .pure
        · split
          · exact .pass .pure
          · exact .bind (.map (genSuperArgs_keeps he)) fun _ => .pure

theorem genField_yields : (genField type b).Yields (Keeps G R) s fun f _ => ∀ t ∈ type, f.ty = t := by
  unfold genField
  refine (Always.yields (.onlyIf .coin) s).bind fun canOverride s₁ _ _ => Yields.coin.bind fun isFinal s₂ _ _ => ?_
  split
  · exact .pass ((word_keeps.yields s₂).bind fun w _ _ _ => .pure fun u hu => Option.some.inj hu)
  · exact (selectType_keeps.yields s₂).bind fun _ s₃ _ _ => (word_keeps.yields s₃).bind fun _ _ _ _ =>
      .pure fun _ h => by cases h

theorem genField_keeps : (genField type b).Always (Keeps G R) :=
  .of_yields fun _ => genField_yields.mono fun _ _ _ _ => trivial

theorem overrideField_keeps {g : FieldDecl} (hns : G → ns.isWithin .global) :
    (overrideField ns m b g).Always (Keeps G R) := by
  unfold overrideField
  exact .bind (.onlyIf .coin) fun _ => attach_keeps rfl hns

theorem sample_keeps {xs : List α} : (sample xs n).Always (Keeps G R) := by
  unfold sample
  exact .bind .sizeBetween fun _ => .rand

/-- **The field that is asked for is gained.** -/
theorem genFields_yields {required superType : Option Ty} (hns : G → ns.isWithin .global) :
    (genFields ns b required superType).Yields (Keeps G R) s fun _ s' => G → s.frame.ns.isWithin .global →
      ∀ t ∈ required, ∃ f, f.ty = t ∧ s.Gains ns (.field f) s' := by
  have hfield : ∀ type, Always (Keeps G R) (do attach ns (.field (← genField type b))) := fun type =>
    .bind genField_keeps fun _ => attach_keeps rfl hns
  have hrequired : ∀ limit, (requiredField ns b required limit).Yields (Keeps G R) s fun _ s' =>
      G → s.frame.ns.isWithin .global → ∀ t ∈ required, ∃ f, f.ty = t ∧ s.Gains ns (.field f) s' := by
    intro limit
    unfold requiredField
    split
    · exact .pure fun _ _ _ h => by cases h
    · refine genField_yields.seq fun f s₁ h₁ hf => ?_
      refine ((attach_yields rfl hns).weaken fun _ => trans_of _ h₁).seq fun _ s₂ h₂ hgains => ⟨h₂, ?_⟩
      exact fun _ _ hG hs t ht => ⟨f, hf t ht, (hgains hG).since (h₁.grows hG hs)⟩
  have hinherited : ∀ limit, (inheritedFields ns b superType limit).Always (Keeps G R) := by
    intro limit
    unfold inheritedFields
    refine .get fun s => ?_
    split
    · exact .pure
    · exact .bind sample_keeps fun _ => .bind (.forM fun _ _ => overrideField_keeps hns) fun _ => .pure
  rw [genFields_eq]
  refine .get ((hrequired _).seq fun limit s₁ h₁ hgains => ?_)
  refine Yields.mono (Always.after (.bind (hinherited limit) fun overridden => .bind .sizeBetween fun extra =>
    .bind (.times (hfield none)) fun _ => .pure) h₁) fun _ s' _ h' hG hs t ht => ?_
  obtain ⟨f, hf, hgained⟩ := hgains hG hs t ht
  exact ⟨f, hf, hgained.kept h₁ h' hG hs⟩

theorem renameClashing_keeps {visible taken : List String} {ps : List TypeParam} {view : Subst} :
    (renameClashing m visible ps taken view).Always (Keeps G R) := by
  induction ps generalizing taken view with
  | nil => exact .pure
  | cons p ps ih =>
    unfold renameClashing
    split
    · refine .bind .rand fun r => ?_
      split <;> exact ih
    · exact ih

theorem overrideFunc_keeps (he : e.Keeps G R Q) (hns : G → ns.isWithin .global) :
    (overrideFunc e ns m b f).Always (Keeps G Q) := by
  unfold overrideFunc
  exact .get fun s => .bind renameClashing_keeps fun _ =>
    genFuncDecl_keeps he fun hG _ hspec => by cases hspec; exact hns hG

theorem genInheritedFuncs_keeps (he : e.Keeps G R Q) (hns : G → ns.isWithin .global) :
    (genInheritedFuncs e ns k b t n).Always (Keeps G Q) := by
  have hoverride : ∀ (f : FuncDecl) m, Always (Keeps G Q) (do let _ ← overrideFunc e ns m b f) := fun f m =>
    .bind (overrideFunc_keeps he hns) fun _ => .pure
  unfold genInheritedFuncs
  extract_lets rest
  have hrest : ∀ r, (rest r).Always (Keeps G Q) := by
    intro r
    show Always (Keeps G Q) (if _ then _ else _)
    split
    · exact .pure
    · refine .get fun s => ?_
      split
      · exact .pure
      · exact .get fun s => .bind sample_keeps fun _ => .bind (.forM fun f _ => hoverride f _) fun _ => .pure
  split
  · exact .get fun s => .bind (.forM fun x _ => hoverride x.1 x.2) hrest
  · exact hrest ()

/-- **The method that is asked for by its result is gained.** -/
theorem genMethods_yields (he : e.Keeps G R Q) (hns : G → ns.isWithin .global) {spec : ClassSpec} :
    (genMethods e ns k b spec type).Yields (Keeps G Q) s fun _ s' => G → s.frame.ns.isWithin .global →
      ∀ t ∈ spec.returnType, ∃ f, f.ret = t ∧ s.Gains ns (.func f) s' := by
  have hmember : ∀ member : FuncSpec, member.ns = some ns → (genFuncDecl e member).Always (Keeps G Q) :=
    fun member hmember => genFuncDecl_keeps he fun hG ns' hns' => by
      obtain rfl : ns = ns' := Option.some.inj (hmember.symm.trans hns')
      exact hns hG
  have hrequired : ∀ ret limit, (requiredMethod e (memberSpec ns k b spec.notVoid) ret limit).Yields
      (Keeps G Q) s fun _ s' => G → s.frame.ns.isWithin .global →
        ∀ t ∈ ret, ∃ f, f.ret = t ∧ s.Gains ns (.func f) s' := by
    rintro (_ | t) limit
    · exact .pure nofun
    · refine Yields.seq (genFuncDecl_yields he hns) fun f s₁ h₁ ⟨hret, hgains⟩ => ⟨h₁, ?_⟩
      exact fun _ _ hG hs u hu => ⟨f, hret u hu, hgains hG hs⟩
  have hsignature : ∀ limit,
      (signatureMethod e (memberSpec ns k b spec.notVoid) spec.signature limit).Always (Keeps G Q) := by
    intro limit
    unfold signatureMethod
    split
    · exact .pure
    · split
      · exact .pure
      · exact .bind (.mapM fun _ _ => .bind word_keeps fun _ => .pure) fun _ =>
          .bind (hmember _ rfl) fun _ => .pure
  have hinherited : ∀ limit, (inheritedMethods e ns k b type limit).Always (Keeps G Q) := by
    intro limit
    unfold inheritedMethods
    split
    · exact .pure
    · exact genInheritedFuncs_keeps he hns
  rw [genMethods_eq]
  refine .get ((hrequired _ _).seq fun limit s₁ h₁ hgains => ?_)
  refine Yields.mono (Always.after (.bind (hsignature limit) fun limit => .bind (hinherited limit) fun overridden =>
    .bind .sizeBetween fun extra => .bind (.times (hmember _ rfl)) fun _ => .pure) h₁)
    fun _ s' _ h' hG hs t ht => ?_
  obtain ⟨f, hf, hgained⟩ := hgains hG hs t ht
  exact ⟨f, hf, hgained.kept h₁ h' hG hs⟩

/-- **A class is registered and gets the members that are asked for.** -/
theorem declareClass_yields (he : e.Keeps G R Q) {spec : ClassSpec} {name : String} {ps : List TypeParam}
    (hk : spec.fieldType.isSome → k ≠ .interface) :
    (declareClass e spec (Namespace.global.child name) name k b ps).Yields (Keeps G R) s fun _ s' =>
      G → s.frame.ns.isWithin .global → startsUppercase name → s'.HasClassWith name ps spec.fieldType spec.returnType := by
  have hns : G → (Namespace.global.child name).isWithin .global := fun _ => Namespace.isWithin_child _ _
  unfold declareClass
  refine ((selectSuperclass_keeps he).yields s).bind fun superclass s₁ h₁ _ => ?_
  extract_lets plain superType rest
  let c : ClassDecl := { plain with typeParams := ps, supers := superclass.toList, isFinal := b }
  have hadd : (addDecl .global (.cls c)).Yields (Keeps G R) s₁ fun _ s' => s'.HasClassWith name ps none none := by
    refine .updateContext (refl_of _ s₁) fun C hC => ?_
    obtain ⟨hfree, hpush⟩ := Context.add_eq_ok hC
    refine ⟨(Restores.add (d := .cls c) nofun hC).keeps rfl rfl fun _ => .add hC, ?_⟩
    exact ⟨c, hpush ▸ Context.tracks_push hfree rfl, rfl, rfl, c.answers_none⟩
  have hrest : ∀ s₂ : Session,
      (G → s₂.frame.ns.isWithin .global → startsUppercase name → s₂.HasClassWith name ps spec.fieldType none) →
      (rest ()).Yields (Keeps G R) s₂ fun _ s' => G → s₂.frame.ns.isWithin .global → startsUppercase name →
        s'.HasClassWith name ps spec.fieldType spec.returnType := by
    intro s₂ h₂
    refine ((genMethods_yields he hns).weaken fun _ => Keeps.imp (fun h => Encloses.outer (R := R) (Q := Q) _ _ h)).mono
      fun _ s' h' hgains hG hs hupper => (h₂ hG hs hupper).gain (h'.grows hG hs) hupper (.inl rfl) (.inr (hgains hG hs))
  refine hadd.bind fun _ s₂ h₂ hanswers => ?_
  have hframe : s₂.frame = s.frame := h₂.restores.frame.trans h₁.restores.frame
  split
  · refine (genFields_yields hns).bind fun _ s₃ h₃ hgains => ?_
    refine (hrest s₃ fun hG hs hupper => ?_).mono fun _ s₄ _ h hG hs => h hG ?_
    · have hs₂ := h₃.restores.frame ▸ hs
      exact hanswers.gain (h₃.grows hG hs₂) hupper (.inr (hgains hG hs₂)) (.inl rfl)
    · rw [h₃.restores.frame, hframe]
      exact hs
  · have hnone : spec.fieldType = none := Option.isNone_iff_eq_none.mp (by simpa using mt hk ‹_›)
    refine (hrest s₂ fun _ _ _ => hnone ▸ hanswers).mono fun _ s₃ _ h hG hs => h hG ?_
    rw [hframe]
    exact hs

theorem classTypeParams_yields {spec : ClassSpec} :
    (classTypeParams ns spec).Yields (Keeps G R) s fun ps _ => ∀ qs ∈ spec.typeParams, ps = qs := by
  unfold classTypeParams
  split
  · rename_i ps hps
    exact (addTypes_keeps.yields s).bind fun _ _ _ _ => .pure fun qs hqs => Option.some.inj (hps.symm.trans hqs)
  · rename_i hnone
    exact (genTypeParams_keeps.yields s).mono fun _ _ _ _ qs hqs => by rw [hnone] at hqs; cases hqs

theorem genClassInside_yields (he : e.Keeps G R Q) {spec : ClassSpec} {name : String} :
    (genClassInside e spec (Namespace.global.child name) name).Yields (Keeps G R) s fun c s' =>
      G → s.frame.ns.isWithin .global → startsUppercase name → s'.class? c.name = some c ∧
        (∀ ps ∈ spec.typeParams, c.typeParams = ps) ∧ c.Answers spec.fieldType spec.returnType := by
  unfold genClassInside
  refine (Yields.of_onlyDraws selectClassKind_yields).seq fun kind s₁ h₁ ⟨_, hkind⟩ => ?_
  refine ((Always.onlyIf .coin).since h₁).seq fun isFinal s₂ h₂ _ => ?_
  refine (classTypeParams_yields.weaken fun _ => trans_of _ h₂).seq fun ps s₃ h₃ hps => ?_
  refine Yields.seq (Q := fun _ s' => G → s.frame.ns.isWithin .global → startsUppercase name →
      s'.HasClassWith name ps spec.fieldType spec.returnType)
    (.whileUnfinished (declareClass_yields he hkind) (fun s' h' => trans_of _ h₃ h'.finish)
      fun _ s' _ h hG hs => h hG (h₃.restores.frame ▸ hs)) fun _ s₄ h₄ hanswers => .get ?_
  split
  · rename_i c hfound
    refine ⟨h₄, fun _ h hG hs hupper => ?_⟩
    cases h
    obtain ⟨c', hc', hname, hparams, hc'answers⟩ := hanswers hG hs hupper
    obtain rfl : c' = c := Option.some.inj (hc'.found.symm.trans (hname ▸ hfound))
    exact ⟨hc'.found, fun qs hqs => hparams.trans (hps qs hqs), hc'answers⟩
  · exact ⟨h₄, nofun⟩

/-- **A class is declared in a scope of its own**, and is unfinished until it has its members. Then it
answers to what was asked for, provided that it is named in uppercase. -/
theorem genClassDecl_yields (he : e.Keeps G R Q) {spec : ClassSpec} :
    (genClassDecl e spec).Yields (Keeps G Q) s fun c s' => G → s.source.pool.Sound →
      (∀ n ∈ spec.name, startsUppercase n) → s'.class? c.name = some c ∧
        (∀ ps ∈ spec.typeParams, c.typeParams = ps) ∧ c.Answers spec.fieldType spec.returnType := by
  have hname : (specClassName spec).Yields (Keeps G Q) s fun name _ => s.source.pool.Sound →
      (∀ n ∈ spec.name, startsUppercase n) → startsUppercase name := by
    unfold specClassName
    split
    · rename_i name hname
      exact .pure fun _ hupper => hupper name hname
    · exact className_yields.mono fun name _ _ h hs _ => h hs
  rw [genClassDecl_eq]
  refine hname.seq fun name s₁ h₁ hupper => ?_
  have hchild : (Namespace.global.child name).isWithin .global := Namespace.isWithin_child _ _
  refine .inFrame (genClassInside_yields he) (fun s' h' => ?_) fun c s' _ h hG hs hgiven =>
    h hG hchild (hupper hs hgiven)
  exact trans_of _ h₁ (h'.leave (Nat.lt_succ_self _) fun _ _ => hchild)

theorem genClassDecl_keeps (he : e.Keeps G R Q) {spec : ClassSpec} : (genClassDecl e spec).Always (Keeps G Q) :=
  .of_yields fun _ => (genClassDecl_yields he).mono fun _ _ _ _ => trivial

theorem abstractVariables_keeps {vs ps : List TypeParam} {taken : List String} :
    (abstractVariables vs taken m ps).Always (Keeps G R) := by
  induction vs generalizing taken m ps with
  | nil => exact .pure
  | cons v vs ih =>
    unfold abstractVariables
    refine .bind .rand fun r => ?_
    split
    · exact .pure
    · exact ih

theorem genMatchingClass_keeps (he : e.Keeps G R Q) : (genMatchingClass e t b).Always (Keeps G Q) := by
  unfold genMatchingClass
  refine .bind abstractVariables_keeps fun x => .bind (genClassDecl_keeps he) fun c => ?_
  extract_lets receiver seen
  split
  · exact .pure
  · exact .throw

end Gen

end ProgramGen

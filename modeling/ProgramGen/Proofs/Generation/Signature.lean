import ProgramGen.Proofs.Generation.Literal
import ProgramGen.Proofs.Typing.Functions

/-!
# Signatures

The type parameters, parameters and result of a new function. Names of parameters are new; default
values are made in the scope around the function, where they declare nothing. Type parameters that
the signature does not use are dropped, and nothing else changes by it.
-/

namespace ProgramGen

variable {s s' s₁ s₂ s₃ : Session} {t u : Ty} {e : Engine} {m : Subst} {p q : TypeParam}
variable {ps : List TypeParam} {params : List ParamDecl} {ret : Ty} {l : Language} {n : String}
variable {parent ns : Namespace} {root : Option Namespace} {ok ok' : Variance → Prop} {P : Permit}

/-! ## Types of signatures -/

/-- In a tidy type a marked name is used where it occurs. -/
theorem Ty.Tidy.uses (h : t.Tidy) (hq : t.Occurs q) (hmarked : IsMarked q.name) : t.Uses q.name := by
  induction hq with
  | here =>
    obtain ⟨n, v, b⟩ := q
    exact .here
  | @bound r b hr hocc ih =>
    have hmark : IsMarked r.name := by
      by_contra hr'
      exact h r .here hr' q (.bound hr hocc) hmarked
    exact .bound hmark hr (ih fun q' hq' => h q' (.bound hr hq'))
  | wildcard _ ih => exact .wildcard (ih fun q' hq' => h q' (.wildcard hq'))
  | arg ha _ ih => exact .arg ha (ih fun q' hq' => h q' (.arg ha hq'))

/-- A name that is used occurs. -/
theorem Ty.Uses.occurs (h : t.Uses n) : ∃ q, t.Occurs q ∧ q.name = n := by
  induction h with
  | here => exact ⟨_, .here, rfl⟩
  | bound _ hb _ ih =>
    obtain ⟨q, hq, hname⟩ := ih
    exact ⟨q, .bound hb hq, hname⟩
  | wildcard _ ih =>
    obtain ⟨q, hq, hname⟩ := ih
    exact ⟨q, .wildcard hq, hname⟩
  | arg ha _ ih =>
    obtain ⟨q, hq, hname⟩ := ih
    exact ⟨q, .arg ha hq, hname⟩

/-- A plain type in which no parameter of a class varies. -/
def Ty.IsSteady (ps : List TypeParam) (t : Ty) : Prop := t.Plain ∧ t.Within ps IsInvariant

/-- What is done to types keeps them so. -/
theorem Ty.IsSteady.closed (ps : List TypeParam) : Ty.Closed (Ty.IsSteady ps) where
  arg h ha := ⟨h.1.arg ha, fun q hq => h.2 q (.arg ha hq)⟩
  bound h hb := ⟨Ty.Plain.closed.bound h.1 hb, fun q hq => h.2 q (.bound hb hq)⟩
  wildcard h := by cases h.1
  subst {t m} h hm := by
    refine ⟨h.1.subst fun n u hu => (hm n u hu).1, fun q hq hletter => ?_⟩
    rcases h.1.occurs_subst hq with ⟨n, u, hu, hocc⟩ | ⟨q', hq', hname, -⟩
    · exact (hm n u hu).2 q hocc hletter
    · rw [← hname] at hletter ⊢
      exact h.2 q' hq' hletter

theorem Ty.IsSteady.boundWithin (h : (Ty.param p).IsSteady ps) : p.BoundWithin ps := fun _ hb =>
  ((Ty.IsSteady.closed ps).bound h hb).2

theorem Ty.isSteady_of_isGround (ht : t.Plain) (hground : t.isGround) : t.IsSteady ps :=
  ⟨ht, .of_not_occurs fun _ => Ty.not_occurs_of_isGround hground⟩

/-! ## Unused type parameters -/

/-- What becomes of a signature: type parameters that it does not mention are gone. -/
structure Signature.Prunes (sig sig' : Signature) : Prop where
  params : sig'.params = sig.params
  ret : sig'.ret = sig.ret
  names : (sig'.typeParams.map (·.name)).Sublist (sig.typeParams.map (·.name))
  used : ∀ p ∈ sig'.typeParams, ∃ t ∈ sig.ret :: sig.params.map (·.ty), ∃ q, t.Occurs q ∧ q.name = p.name
  closed : ∀ Q : Ty → Prop, Ty.Closed Q → (∀ l : Language, Q l.anyType) →
    (∀ p ∈ sig.typeParams, Q (.param p)) → ∀ p ∈ sig'.typeParams, Q (.param p)

/-- The signature mentions all of its type parameters. -/
def Signature.UsesAll (sig : Signature) : Prop :=
  ∀ p ∈ sig.typeParams, ∃ t ∈ sig.ret :: sig.params.map (·.ty), ∃ q, t.Occurs q ∧ q.name = p.name

/-- Nothing is dropped of a signature that mentions all of its type parameters. -/
theorem isEmpty_unusedTypeParams {sig : Signature} (h : sig.UsesAll) :
    (unusedTypeParams l sig.typeParams sig.params sig.ret).isEmpty := by
  unfold unusedTypeParams
  extract_lets used
  have hnone : (sig.typeParams.filter fun p => !used.contains p.name) = [] := by
    refine List.filter_eq_nil_iff.mpr fun p hp => ?_
    obtain ⟨t, ht, q, hq, hname⟩ := h p hp
    have hmem : p.name ∈ used := by
      rw [← hname]
      refine List.mem_map_of_mem (List.mem_append.mpr ?_)
      rcases List.mem_cons.mp ht with rfl | ht
      · exact .inl (Ty.mem_typeVars.mpr hq)
      · obtain ⟨r, hr, rfl⟩ := List.mem_map.mp ht
        exact .inr (List.mem_flatMap.mpr ⟨r, hr, Ty.mem_typeVars.mpr hq⟩)
    simpa using hmem
  rw [hnone]
  rfl

theorem all_unusedTypeParams {Q : Ty → Prop} (hQ : Ty.Closed Q) (htop : ∀ l : Language, Q l.anyType)
    (hps : ∀ p ∈ ps, Q (.param p)) : (unusedTypeParams l ps params ret).All Q := by
  refine .ofList fun x hx => ?_
  obtain ⟨p, hp, rfl⟩ := List.mem_map.mp hx
  cases hb : p.effectiveBound with
  | none => exact htop l
  | some b => exact hQ.effectiveBound (hps p (List.mem_of_mem_filter hp)) hb

/-- A type parameter that is not dropped is one that the signature mentions. -/
theorem occurs_of_not_contains (hp : p ∈ ps) (h : (unusedTypeParams l ps params ret).contains p = false) :
    ∃ t ∈ ret :: params.map (·.ty), ∃ q, t.Occurs q ∧ q.name = p.name := by
  by_contra hnone
  have hunused : ¬((ret.typeVars ++ params.flatMap (·.ty.typeVars)).map (·.name)).contains p.name := by
    rw [List.contains_iff_mem, List.mem_map]
    rintro ⟨q, hq, hname⟩
    rcases List.mem_append.mp hq with hq | hq
    · exact hnone ⟨ret, List.mem_cons_self, q, Ty.mem_typeVars.mp hq, hname⟩
    · obtain ⟨r, hr, hq⟩ := List.mem_flatMap.mp hq
      exact hnone ⟨r.ty, List.mem_cons_of_mem _ (List.mem_map_of_mem hr), q, Ty.mem_typeVars.mp hq, hname⟩
  have hmem : p ∈ ps.filter fun p =>
      !((ret.typeVars ++ params.flatMap (·.ty.typeVars)).map (·.name)).contains p.name :=
    List.mem_filter.mpr ⟨hp, by simpa using hunused⟩
  refine absurd h (Bool.not_eq_false _ ▸ ?_)
  have hkeys : ∀ (L : List (TypeParam × Ty)), (∃ x ∈ L, x.1.name = p.name) →
      ((Subst.ofList L).lookup p.name).isSome := by
    intro L
    induction L using List.reverseRecOn with
    | nil => simp
    | append_singleton L y ih =>
      rintro ⟨x, hx, hname⟩
      rw [Subst.ofList_append_singleton, Subst.lookup_insert]
      split
      · rfl
      · refine ih ⟨x, (List.mem_append.mp hx).resolve_right fun hx => ?_, hname⟩
        rw [List.mem_singleton.mp hx] at hname
        exact ‹¬_› hname
  exact hkeys _ ⟨_, List.mem_map_of_mem hmem, rfl⟩

theorem TypeParam.subst_of_not_contains (h : m.contains p = false) :
    (Ty.param p).subst m = .param (p.subst m) ∧ (p.subst m).name = p.name := by
  obtain ⟨n, v, b⟩ := p
  have hnone : m.lookup n = none := by simpa [Subst.contains, Subst.get?] using h
  unfold TypeParam.subst
  rw [Ty.subst, hnone]
  exact ⟨rfl, rfl⟩

namespace Context

/-- The name of a type parameter that is bound around a scope is visible there. -/
theorem exists_mem_types {c : Context} {m : Namespace} (hm : m ∈ ns.lineage) (hp : p ∈ (c.scope m).types) :
    ∃ q ∈ c.types ns true, q.name = p.name := by
  have hmem : p ∈ ns.lineage.flatMap fun s => (c.scope s).types := List.mem_flatMap.mpr ⟨m, hm, hp⟩
  rw [types_eq_merged]
  exact List.mem_map.mp (mem_map_merged.mpr (List.mem_map_of_mem hmem))

theorem scope_removeTypes {c : Context} (ps : List TypeParam) :
    ((ps.foldl (fun c p => c.removeType ns p.name) c).scope ns).types =
      ps.foldl (fun ts p => ts.eraseP (·.name == p.name)) (c.scope ns).types ∧
    (∀ m, (ps.foldl (fun c p => c.removeType ns p.name) c).declarations m = c.declarations m) ∧
    ∀ m, m ≠ ns → (ps.foldl (fun c p => c.removeType ns p.name) c).scope m = c.scope m := by
  induction ps generalizing c with
  | nil => exact ⟨rfl, fun _ => rfl, fun _ _ => rfl⟩
  | cons p ps ih =>
    obtain ⟨htypes, hdecls, hscope⟩ := ih (c := c.removeType ns p.name)
    refine ⟨?_, fun m => (hdecls m).trans ?_, fun m hm => (hscope m hm).trans ?_⟩
    · rw [List.foldl_cons, List.foldl_cons, htypes, removeType, scope_set_self]
    · rw [declarations, declarations, removeType, scope_set]
      split
      · rw [‹ns = m›]
      · rfl
    · rw [removeType, scope_set, if_neg (Ne.symm hm)]

/-- All type parameters of a scope are removed one by one. -/
theorem foldl_eraseP_self (ps : List TypeParam) :
    ps.foldl (fun ts p => ts.eraseP (·.name == p.name)) ps = [] := by
  have hcons : ∀ qs ps : List TypeParam, qs = ps →
      ps.foldl (fun ts p => ts.eraseP (·.name == p.name)) qs = [] := by
    intro qs ps
    induction ps generalizing qs with
    | nil => exact id
    | cons p ps ih =>
      rintro rfl
      rw [List.foldl_cons]
      exact ih _ (by simp)
  exact hcons ps ps rfl

end Context

namespace Gen

open Session

/-- **Type parameters that a signature does not use are dropped**, and nothing else. -/
theorem pruneTypeParams_ensures {sig : Signature} (hs : s.Sound) (hopened : s.Opened ns)
    (hP : P.scopes ns) (hmaking : P.making ns) (hns : ns ≠ .global) (hclass : ns.className? = none)
    (htypes : sig.typeParams ≠ [] → (s.context.scope ns).types = sig.typeParams)
    (hdistinct : (sig.typeParams.map (·.name)).Nodup) (htypeParams : ∀ p ∈ sig.typeParams, (Ty.param p).Plain) :
    (pruneTypeParams ns sig).Ensures (Step P) s fun sig' s' =>
      sig.Prunes sig' ∧ (sig.UsesAll → sig' = sig) ∧ ∀ m, s'.decls m = s.decls m := by
  unfold pruneTypeParams
  refine .get ?_
  extract_lets m kept
  split
  -- Nothing is unused, so the signature is handed back as it is.
  · rename_i hempty
    refine .pure (.refl hs) ⟨⟨rfl, rfl, .refl _, fun p hp => ?_, fun _ _ _ h => h⟩, fun _ => rfl, fun _ => rfl⟩
    refine @occurs_of_not_contains _ sig.typeParams _ _ s.language hp ?_
    show m.contains p = false
    have hnil : m.entries = [] := List.isEmpty_iff.mp hempty
    simp [Subst.contains, Subst.get?, Subst.lookup, hnil]
  · rename_i hne
    have hnonempty : sig.typeParams ≠ [] := by
      intro hnil
      refine hne ?_
      show (unusedTypeParams s.language sig.typeParams sig.params sig.ret).isEmpty
      rw [hnil]
      rfl
    -- All the parameters are taken out of the scope and those still used are bound again, in the
    -- same order.
    have hown : ∀ c ∈ s.classes, c.scope ≠ ns := fun c hc => scope_ne hs hc hclass
    obtain ⟨hremoved, hdecls, hscope⟩ := @Context.scope_removeTypes ns s.context sig.typeParams
    rw [htypes hnonempty, Context.foldl_eraseP_self] at hremoved
    have hkept : ∀ p ∈ kept, ∃ q ∈ sig.typeParams, m.contains q = false ∧ p = q.subst m := by
      intro p hp
      obtain ⟨q, hq, rfl⟩ := List.mem_map.mp hp
      obtain ⟨hq, hnot⟩ := List.mem_filter.mp hq
      exact ⟨q, hq, by simpa using hnot, rfl⟩
    -- A parameter that is kept keeps its name, as the substitution touches only its bound.
    have hnames : (kept.map (·.name)).Sublist (sig.typeParams.map (·.name)) := by
      have : kept.map (·.name) = (sig.typeParams.filter fun p => !m.contains p).map (·.name) := by
        rw [List.map_map]
        refine List.map_congr_left fun q hq => ?_
        exact (TypeParam.subst_of_not_contains (by simpa using (List.mem_filter.mp hq).2)).2
      rw [this]
      exact List.filter_sublist.map _
    have hprunes : sig.Prunes ⟨kept, sig.params.map fun p => { p with ty := p.ty.subst m }, sig.ret.subst m⟩ :=
      { params := by
          show sig.params.map _ = sig.params
          conv_rhs => rw [← List.map_id sig.params]
          refine List.map_congr_left fun p hp => ?_
          rw [Ty.subst_of_unbound fun q hq => lookup_unusedTypeParams (.inr ⟨p, hp, hq⟩)]
          cases p
          rfl
        ret := Ty.subst_of_unbound fun q hq => lookup_unusedTypeParams (.inl hq)
        names := hnames
        used := fun p hp => by
          obtain ⟨q, hq, hnot, rfl⟩ := hkept p hp
          obtain ⟨t, ht, r, hr, hname⟩ := occurs_of_not_contains hq hnot
          exact ⟨t, ht, r, hr, hname.trans (TypeParam.subst_of_not_contains hnot).2.symm⟩
        closed := fun Q hQ htop hps p hp => by
          obtain ⟨q, hq, hnot, rfl⟩ := hkept p hp
          rw [← (TypeParam.subst_of_not_contains hnot).1]
          exact hQ.subst_all (hps q hq) (all_unusedTypeParams hQ htop hps) }
    have hstep : s.Step P (s.withContext (sig.typeParams.foldl (fun c p => c.removeType ns p.name) s.context)) := by
      refine .of_decls hs (.withContext hs _) hdecls hscope hopened hP hmaking hns hown fun p hp => ?_
      rw [Session.context_withContext, hremoved] at hp
      cases hp
    refine Ensures.bind (R := Step P) (Q := fun _ s₁ =>
      s₁ = s.withContext (sig.typeParams.foldl (fun c p => c.removeType ns p.name) s.context))
      (.modifyContext (.of_declarations hdecls) hstep rfl) fun _ s₁ h₁ heq => ?_
    subst heq
    have hkeptFits : ∀ p ∈ kept, ParamFits ns p := fun p hp => by
      refine ⟨?_, fun h => absurd hclass h⟩
      exact hprunes.closed _ Ty.Plain.closed (fun l => l.plain_builtin (k := .any) (by decide)) htypeParams p hp
    refine (addTypes_ensures (P := P) h₁.sound (opened_mono h₁.toLeads hopened) hP hmaking hns
      (fun c hc => scope_ne h₁.sound hc hclass) hkeptFits ?_).bind fun _ s₂ h₂ hbinds => ?_
    · rw [Session.context_withContext, hremoved, List.nil_append]
      exact hdistinct.sublist hnames
    · refine .pure (.refl h₂.sound) ⟨hprunes, fun hall => absurd ?_ hne, fun m =>
        (hbinds.decls m).trans (hdecls m)⟩
      exact isEmpty_unusedTypeParams hall

end Gen

/-! ## The place of a new function -/

theorem Namespace.isLocal_iff_nested (h : ns.segments.head? = some globalSegment) :
    FuncKind.inside ns = .nested ↔ ns.IsLocal := by
  have hglobal : ns = .global ↔ ns.isGlobal := (isGlobal_iff h).symm
  have hiff : ns.IsLocal ↔ ns.isGlobal = false ∧ ns.className? = none := by
    rw [← Bool.not_eq_true, ← hglobal]
    exact ⟨fun h => ⟨h.ne_global, h.className?_eq⟩, fun h => ⟨h.1, h.2⟩⟩
  rw [hiff]
  unfold FuncKind.inside
  cases hg : ns.isGlobal
  · obtain ⟨segments⟩ := ns
    match segments, hg with
    | [], _ => simp [className?, size]
    | [a], hg => cases hg
    | [a, b], _ => cases hb : ProgramGen.startsUppercase b <;> simp [className?, size, last, hb]
    | a :: b :: c :: rest, _ => simp [className?, size]
  · simp

/-- A declaration that is no parameter and no closure. -/
def Decl.isLocal : Decl → Bool
  | .param _ => false
  | .lambda _ => false
  | _ => true

namespace Session

theorem mem_localDecls {d : Decl} : d ∈ s.localDecls ↔ d ∈ s.decls s.frame.ns ∧ d.isLocal := by
  rw [localDecls, List.mem_filter]
  cases d <;> rfl

/-- The frame is inside a new function, before its body. -/
structure InFunc (s : Session) (parent : Namespace) (n : String) : Prop where
  ns : s.frame.ns = parent.child n
  outside : s.frame.inFuncBody = false
  branch : s.frame.inValueBranch = false
  root : s.frame.captureRoot = if FuncKind.inside parent = .nested then some (parent.child n) else none
  rooted : parent.segments.head? = some Namespace.globalSegment
  named : parent = .global → startsUppercase n = false
  opened : s.Opened parent

/-- A step that declares nothing in the scope `ns`. -/
structure Aside (ns : Namespace) (s s' : Session) : Prop extends s.Step (.within ns) s' where
  nothing : ns.IsLocal → ∀ d ∈ s'.decls ns, d.isLocal → d ∈ s.decls ns

instance : RunRelation (Aside ns) where
  trans _ _ _ h h' :=
    ⟨h.toStep.trans h'.toStep, fun hns d hd hlocal => h.nothing hns d (h'.nothing hns d hd hlocal) hlocal⟩
  refl_right h := ⟨.refl h.sound, fun _ _ hd _ => hd⟩

theorem Aside.refl (hs : s.Sound) : s.Aside ns s := ⟨.refl hs, fun _ _ hd _ => hd⟩

theorem Aside.of_context (hs : s.Sound) (hp : s.Passes s') (h : s'.context = s.context) : s.Aside ns s' :=
  ⟨.of_context hs hp h, fun _ d hd _ => by
    unfold decls at hd ⊢
    rwa [h] at hd⟩

end Session

/-- What only draws declares nothing. -/
theorem Gen.Ensures.drawAside {α : Type} {x : Gen α} {Q : α → Session → Prop}
    (h : x.Ensures Session.OnlyDraws s Q) (hs : s.Sound) :
    x.Ensures (Session.Aside ns) s fun a s' => s.OnlyDraws s' ∧ Q a s' :=
  h.ofDraws fun stream => .of_context hs (.atStream hs stream) rfl

namespace Session

namespace InFunc

variable (h : s.InFunc parent n)
include h

theorem isLocal : (parent.child n).IsLocal := by
  refine ⟨Namespace.child_ne_global h.rooted, ?_⟩
  by_cases hglobal : parent = .global
  · exact Namespace.className?_child_of_lower (h.named hglobal)
  · exact Namespace.className?_child_of_ne_global h.rooted hglobal

theorem ne_parent : parent ≠ s.frame.ns := by
  rw [h.ns]
  exact Namespace.ne_child (Namespace.isWithin_refl parent)

theorem opened_self (hs : s.Sound) : s.Opened (parent.child n) := by
  rw [← h.ns]
  exact hs.here

theorem mono (hl : s.Leads s') (hframe : s'.frame = s.frame) : s'.InFunc parent n :=
  ⟨hframe ▸ h.ns, hframe ▸ h.outside, hframe ▸ h.branch, hframe ▸ h.root, h.rooted, h.named,
    opened_mono hl h.opened⟩

theorem step {P : Permit} (hstep : s.Step P s') : s'.InFunc parent n := h.mono hstep.toLeads hstep.frame

/-- The scope around can be entered from it. -/
theorem canEnter_parent : s.CanEnter { s.frame with ns := parent } where
  rooted := h.rooted
  opened := h.opened
  body hbody := by
    have := h.outside
    rw [show s.frame.inFuncBody = true from hbody] at this
    cases this
  root hparent := by
    have hnot : ¬parent.IsLocal := fun hlocal => hparent.elim hlocal.ne_global fun hc => hc hlocal.className?_eq
    show s.frame.captureRoot = none
    rw [h.root, if_neg fun hkind => hnot ((Namespace.isLocal_iff_nested h.rooted).mp hkind)]

end InFunc

end Session

namespace Gen

open Session

/-! ## Parameters -/

/-- **A default value is made in the scope around the function.** -/
theorem defaultValue_ensures (hs : s.Sound) (h : s.InFunc parent n) (he : s.Served e 0) (ht : t.Plain) :
    (inFrame (fun f => { f with ns := parent }) (e.expr t .leaves)).Ensures (Aside parent) s fun a s' =>
      s'.Fits parent s.frame.captureRoot noTargets (fun v => [(v, a)]) ∧ s'.ShapesRoot a := by
  refine .inFrame ?_
  have hs₁ : Sound { s with frame := { s.frame with ns := parent } } := hs.withFrame h.canEnter_parent
  refine (Served.expr (s := { s with frame := { s.frame with ns := parent } }) (he.withFrame le_rfl) hs₁
    (.inl ht) (Permit.covers_within _)).imp fun a s' hstep ha => ⟨⟨?_, fun hlocal d hd hd' => ?_⟩, ?_⟩
  · exact hstep.leaveOtherScope hs (allows_refl s _) fun _ heq => h.ne_parent heq.symm
  · have hframe : s'.frame.ns = parent := congrArg Frame.ns hstep.frame
    have hmem : d ∈ s'.localDecls := mem_localDecls.mpr ⟨hframe ▸ hd, hd'⟩
    rcases hstep.locals hlocal d hmem with hd | hfits
    · exact (mem_localDecls.mp hd).1
    · have hbody := hfits.place.body
      rw [hstep.frame, h.outside] at hbody
      cases hbody
  · have hstands := ha.value ht.isVoid
    refine ⟨?_, (hstands.depth.trans exprDepth_le_initDepth.2).trans initDepth_le_rootDepth, hstands.value⟩
    have hfits := hstands.fits
    unfold FitsHere at hfits
    rw [hstep.frame] at hfits
    exact fits_withFrame.mpr hfits

/-- What a new parameter may be a type of: variables that may go into an object. -/
abbrev inputTypes : TypeOpts := { noCovariant := true }

/-- A parameter that was made since `s`. -/
structure NewParam (s s' : Session) (parent : Namespace) (root : Option Namespace) (p : ParamDecl) :
    Prop where
  unspent : ¬s.Spent p.name
  spent : s'.Spent p.name
  free : ¬s'.Taken p.name
  chosen : Chosen s inputTypes.Allows p.ty
  default : ∀ a ∈ p.defaultValue, s'.Fits parent root noTargets (fun v => [(v, a)]) ∧ s'.ShapesRoot a

/-- What is chosen where no more is seen. -/
theorem Chosen.of_sees (h : Chosen s' ok t) (hsees : ∀ q, s'.SeesParam q → s.SeesParam q) : Chosen s ok t where
  plain := h.plain
  names := h.names.mono fun _ ⟨q, hq, hn⟩ => ⟨q, hsees q hq, hn⟩
  occurs q hq := by
    obtain ⟨r, hr, hocc⟩ := h.occurs q hq
    exact ⟨r, hsees r hr, hocc⟩
  varies hs := h.varies fun r hr => hs r (hsees r hr)

end Gen

namespace Session

theorem Sound.opened_lineage (hs : s.Sound) {m : Namespace} (hm : m ∈ s.frame.ns.lineage) : s.Opened m := by
  obtain ⟨hwithin, -⟩ := Namespace.mem_lineage.mp hm
  exact fun n hn => hs.here n ((Namespace.isWithin_iff.mp hwithin).subset hn)

/-- Where no types are bound, no more are seen. -/
theorem Extends.seesParam (h : s.Extends P s') (hs : s.Sound) (hP : ∀ m, ¬P.making m) :
    s'.SeesParam q ↔ s.SeesParam q := by
  unfold SeesParam
  rw [h.frame]
  refine exists_congr fun m => and_congr_right fun hm => ?_
  rw [h.types m (hs.opened_lineage hm) (hP m)]

end Session

namespace Gen

open Session

theorem NewParam.mono {p : ParamDecl} (h : NewParam s s₁ parent root p) (hstep : s₁.Aside parent s₂) :
    NewParam s s₂ parent root p where
  unspent := h.unspent
  spent := hstep.spent _ h.spent
  free hn := (hstep.taken _ h.spent hn).elim h.free fun h => h.elim
  chosen := h.chosen
  default a ha := ⟨(h.default a ha).1.mono hstep.toLeads (.refl _), hstep.toLeads.shapesRoot (h.default a ha).2⟩

theorem NewParam.since {p : ParamDecl} (h : NewParam s₁ s₂ parent root p) (hs : s.Sound)
    (hstep : s.Aside parent s₁) : NewParam s s₂ parent root p where
  unspent hn := h.unspent (hstep.spent _ hn)
  spent := h.spent
  free := h.free
  chosen := h.chosen.of_sees fun _ => (hstep.toExtends.seesParam hs fun _ => id).mp
  default := h.default

/-- New parameters, with values in the scope around the function. -/
theorem genParams_ensures {withDefaults started : Bool} {k : Nat} (hs : s.Sound) (h : s.InFunc parent n)
    (he : s.Served e 0) :
    (genParams e parent withDefaults k started).Ensures (Aside parent) s fun ps s' =>
      (∀ p ∈ ps, NewParam s s' parent s.frame.captureRoot p) ∧ (ps.map (·.name)).Nodup := by
  -- On the number of parameters still to make; once one has a default value, all that follow have
  -- one.
  induction k generalizing s started with
  | zero => exact .pure (.refl hs) ⟨by simp, List.nodup_nil⟩
  | succ k ih =>
    rw [genParams]
    unfold genParam
    simp only [bind_assoc, pure_bind]
    refine ((selectType_chosen hs rfl).drawAside hs).bind fun t s₁ h₁ ht => ?_
    refine Ensures.bind (R := Aside parent) (Q := fun w s₂ => s₁.NewName w s₂)
      ((word_step (P := .within parent) h₁.sound).imp fun w s₂ _ hw =>
        ⟨.of_context h₁.sound hw.1.passes hw.1.context, hw.1⟩) fun w s₂ h₂ hname => ?_
    refine ((Ensures.onlyIf (R := OnlyDraws) (refl_of OnlyDraws s₂) fun _ => ?_).drawAside h₂.sound).bind
      fun hasDefault s₃ h₃ _ => ?_
    · split
      · exact .pure (refl_of OnlyDraws s₂) trivial
      · exact .coin
    have h₁₃ : s₁.Aside parent s₃ := trans_of (Aside parent) h₂ h₃
    have h₀₃ : s.Aside parent s₃ := trans_of (Aside parent) h₁ h₁₃
    -- With or without a default value, the parameter joins the ones made after it in the same way.
    have hrest : ∀ (value : Option Expr) (s₄ : Session), s₃.Aside parent s₄ →
        (∀ a ∈ value, s₄.Fits parent s.frame.captureRoot noTargets (fun v => [(v, a)]) ∧ s₄.ShapesRoot a) →
        (do return ({ name := w, ty := t, defaultValue := value } : ParamDecl) ::
          (← genParams e parent withDefaults k (started || hasDefault)) : Gen (List ParamDecl)).Ensures (Aside parent) s₄
          fun (ps : List ParamDecl) s' =>
            (∀ p ∈ ps, NewParam s s' parent s.frame.captureRoot p) ∧ (ps.map (·.name)).Nodup := by
      intro value s₄ h₄ hvalue
      have h₁₄ : s₁.Aside parent s₄ := trans_of (Aside parent) h₁₃ h₄
      have h₂₄ : s₂.Aside parent s₄ := trans_of (Aside parent) h₃ h₄
      have h₀₄ : s.Aside parent s₄ := trans_of (Aside parent) h₀₃ h₄
      have hp : NewParam s s₄ parent s.frame.captureRoot ⟨w, t, value⟩ :=
        { unspent := fun hn => hname.unspent (h₁.spent _ hn)
          spent := h₂₄.spent _ hname.spent
          free := fun hn => (h₂₄.taken _ hname.spent hn).elim (fun hn => hname.not_taken h₁.sound
            ((taken_of_context hname.context).mp hn)) fun h => h.elim
          chosen := ht.2
          default := hvalue }
      refine (ih h₄.sound (h.step h₀₄.toStep) (he.step h₀₄.toStep)).bind fun ps s₅ h₅ hps => ?_
      obtain ⟨hnew, hdistinct⟩ := hps
      rw [h₀₄.frame] at hnew
      refine .pure (.refl h₅.sound) ⟨List.forall_mem_cons.mpr ⟨hp.mono h₅, fun p hp => (hnew p hp).since hs h₀₄⟩, ?_⟩
      -- A later parameter has a name that was unspent then, and this name was spent by that time.
      refine List.nodup_cons.mpr ⟨fun hmem => ?_, hdistinct⟩
      obtain ⟨p, hp', heq⟩ := List.mem_map.mp hmem
      refine (hnew p hp').unspent ?_
      rw [heq]
      exact hp.spent
    have hs₃ := h₃.sound
    split
    · rw [map_eq_pure_bind]
      simp only [bind_assoc, pure_bind]
      refine (defaultValue_ensures hs₃ (h.step h₀₃.toStep) (he.step h₀₃.toStep) ht.2.plain).bind
        fun a s₄ h₄ ha => ?_
      rw [h₀₃.frame] at ha
      exact hrest (some a) s₄ h₄ fun b hb => Option.some.inj hb ▸ ha
    · exact hrest none s₃ (.refl hs₃) fun _ h => by cases h

theorem genFuncParams_ensures {isInterface : Bool} (hs : s.Sound) (h : s.InFunc parent n)
    (he : s.Served e 0) :
    (genFuncParams e parent isInterface).Ensures (Aside parent) s fun ps s' =>
      (∀ p ∈ ps, NewParam s s' parent s.frame.captureRoot p) ∧ (ps.map (·.name)).Nodup := by
  unfold genFuncParams
  refine ((Ensures.onlyIf (R := OnlyDraws) (refl_of OnlyDraws s) fun _ => .chance).drawAside hs).bind
    fun withDefaults s₁ h₁ _ => .get ?_
  refine (Ensures.sizeBetween.drawAside h₁.sound).bind fun k s₂ h₂ _ => ?_
  have h₀₂ : s.Aside parent s₂ := trans_of (Aside parent) h₁ h₂
  refine (genParams_ensures h₂.sound (h.step h₀₂.toStep) (he.step h₀₂.toStep)).mono fun ps s' _ hps => ?_
  rw [h₀₂.frame] at hps
  exact ⟨fun p hp => (hps.1 p hp).since hs h₀₂, hps.2⟩

/-! ## Results -/

/-- What a function may return a type of: variables that may come out of an object. -/
abbrev outputTypes : TypeOpts := { noContravariant := true }

/-- A parameter's type that is no contravariant variable may be returned. -/
theorem Chosen.output (h : Chosen s inputTypes.Allows t) (ht : isContravariantVariable t = false) :
    Chosen s outputTypes.Allows t := by
  refine ⟨h.plain, h.names, h.occurs, fun hs q hq => (h.varies hs q hq).imp_right ?_⟩
  rintro ⟨rfl, -⟩
  refine ⟨rfl, nofun, fun _ => ?_⟩
  simpa [isContravariantVariable, IsOutput] using ht

theorem genReturnType_ensures {notVoid : Bool} (hs : s.Sound)
    (hparams : ∀ p ∈ params, Chosen s inputTypes.Allows p.ty) :
    (genReturnType params notVoid).Ensures OnlyDraws s fun t _ =>
      Chosen s outputTypes.Allows t ∨ t = s.language.voidType := by
  unfold genReturnType
  extract_lets types other
  have hother : ∀ s₁, s.OnlyDraws s₁ → other.Ensures OnlyDraws s₁ fun t _ =>
      Chosen s outputTypes.Allows t ∨ t = s.language.voidType := by
    rintro _ ⟨stream, rfl⟩
    refine (selectType_ensures (Sound.atStream hs stream)).mono fun t _ _ ht => ?_
    rcases ht with ht | ⟨ht, -⟩
    · obtain ⟨hplain, hnames, hoccurs, hvaries⟩ := ht.of_atStream
      exact .inl ⟨hplain, hnames, hoccurs, hvaries⟩
    · exact .inr ht
  refine (Ensures.onlyIf (R := OnlyDraws) (refl_of OnlyDraws s) fun _ => .chance).bind fun reuse s₁ h₁ _ => ?_
  split
  · refine Ensures.pick.bind fun chosen s₂ h₂ hpick => ?_
    split
    · rename_i t
      obtain ⟨ht, hnot⟩ := List.mem_filter.mp (hpick.2 t rfl)
      obtain ⟨p, hp, rfl⟩ := List.mem_map.mp ht
      exact .pure (refl_of OnlyDraws s₂) (.inl ((hparams p hp).output (by simpa using hnot)))
    · exact hother s₂ (trans_of OnlyDraws h₁ h₂)
  · exact hother s₁ h₁

/-! ## Type parameters -/

/-- **The type parameters of a function**: fresh ones, or those that are given. -/
theorem genFuncTypeParams_ensures {given : Option (List TypeParam)} (hs : s.Sound) (h : s.InFunc parent n)
    (hP : P.scopes (parent.child n)) (hmaking : P.making (parent.child n))
    (hempty : (s.context.scope (parent.child n)).types = [])
    (hgiven : ∀ ps ∈ given, (∀ p ∈ ps, (Ty.param p).Plain) ∧ (ps.map (·.name)).Nodup) :
    (genFuncTypeParams (parent.child n) (FuncKind.inside parent) given).Ensures (Step P) s fun ps s' =>
      s.BindsTypes s' (parent.child n) ps ∧
        ((FreshParams s true s.visibleLetters ps ∧ (given = none ∨ parent.IsLocal)) ∨
          (given = some ps ∧ ¬parent.IsLocal)) := by
  have hlocal := h.isLocal
  have hns := h.ns
  -- A nested function has none, one that is given its parameters binds those, and any other may draw
  -- fresh ones.
  unfold genFuncTypeParams
  split
  · rename_i hkind
    exact .pure (.refl hs) ⟨.nil rfl, .inl ⟨.nil, .inr ((Namespace.isLocal_iff_nested h.rooted).mp hkind)⟩⟩
  · rename_i ps hkind
    obtain ⟨hplain, hdistinct⟩ := hgiven ps rfl
    refine (addTypes_ensures hs (hns ▸ hs.here) hP hmaking hlocal.ne_global
      (fun c hc => scope_ne hs hc hlocal.className?_eq)
      (fun p hp => ⟨hplain p hp, fun hc => absurd hlocal.className?_eq hc⟩)
      (by rwa [hempty, List.nil_append])).bind fun _ s₁ h₁ hbinds => .pure (.refl h₁.sound) ⟨hbinds, .inr ⟨rfl, ?_⟩⟩
    exact fun hp => hkind ((Namespace.isLocal_iff_nested h.rooted).mpr hp)
  · refine (Ensures.chance.drawStep hs).bind fun fresh s₁ h₁ hfresh => ?_
    obtain ⟨⟨stream, rfl⟩, -⟩ := hfresh
    split
    · refine .get ?_
      have hframe : (s.atStream stream).frame.ns = parent.child n := hns
      rw [← hframe] at hP hmaking hempty hlocal ⊢
      refine (genTypeParams_ensures h₁.sound hP hmaking hlocal.ne_global
        (fun c hc => scope_ne h₁.sound hc hlocal.className?_eq) (fun hc => absurd hlocal.className?_eq hc)
        hempty).mono fun ps s₂ _ hps => ?_
      exact ⟨⟨hps.2.types, hps.2.decls⟩, .inl ⟨⟨hps.1.letters, hps.1.distinct, hps.1.plain, hps.1.occurs,
        hps.1.telescoped, hps.1.steady⟩, .inl rfl⟩⟩
    · exact .pure (.refl h₁.sound) ⟨.nil rfl, .inl ⟨.nil, .inl rfl⟩⟩

end Gen

/-! ## Methods -/

namespace Session

variable {c : ClassDecl} {f : FuncDecl}

theorem strip_of_mem_capitalLetters : ∀ letter ∈ capitalLetters,
    visibleLetters.stripFunctionMark letter = letter := by
  decide

/-- In a class its own type parameters are seen. -/
theorem Sound.mem_typeParams (hs : s.Sound) (hc : c ∈ s.classes) {m : Namespace} (hm : m ∈ c.scope.lineage)
    (hq : q ∈ (s.context.scope m).types) : q ∈ c.typeParams := by
  rcases Namespace.mem_lineage_child_global hm with rfl | rfl
  · exact hs.ownTypes c hc ▸ hq
  · rw [hs.globalTypes] at hq
    cases hq

/-- In a method without type parameters of its own, those of the class are seen. -/
theorem Sound.seesParam_method (hs : s.Sound) (hc : c ∈ s.classes) (h : s.InFunc c.scope n)
    (hempty : (s.context.scope (c.scope.child n)).types = []) (hq : s.SeesParam q) : q ∈ c.typeParams := by
  obtain ⟨m, hm, hq⟩ := hq
  obtain ⟨hwithin, hne⟩ := Namespace.mem_lineage.mp hm
  rw [h.ns] at hwithin
  by_cases hself : m = c.scope.child n
  · rw [hself, hempty] at hq
    cases hq
  · exact hs.mem_typeParams hc (Namespace.mem_lineage.mpr ⟨Namespace.isWithin_of_child hwithin hself, hne⟩) hq

/-- What the types that are chosen in a method mention. -/
structure InMethod (s : Session) (c : ClassDecl) : Prop where
  reaches : ∀ q, s.Reaches q → q ∈ c.typeParams ∨ IsMarked q.name
  steady : s.Steady
  unmarked : ∀ q ∈ c.typeParams, ∀ p, (Ty.param q).Occurs p → ¬IsMarked p.name

theorem isMarked_of_letters {taken : List String} (h : FreshParams s true taken ps) (hq : q ∈ ps) :
    IsMarked q.name := by
  obtain ⟨letter, -, -, hname⟩ := h.letters q hq
  exact ⟨letter, hname⟩

theorem Sound.inMethod (hs : s.Sound) (hc : c ∈ s.classes) (h : s.InFunc c.scope n)
    (hempty : (s.context.scope (c.scope.child n)).types = []) (hps : FreshParams s true s.visibleLetters ps)
    (hbinds : s.BindsTypes s₁ (c.scope.child n) ps) (hframe : s₁.frame = s.frame) : s₁.InMethod c := by
  have hok := hs.classes c hc
  have hsees : ∀ q, s.SeesParam q → q ∈ c.typeParams := fun q => hs.seesParam_method hc h hempty
  have hparam : ∀ p ∈ c.typeParams, ∀ q, (Ty.param p).Occurs q → q ∈ c.typeParams := by
    intro p hp q hq
    rcases Ty.occurs_param.mp hq with rfl | ⟨b, hb, hq⟩
    · exact hp
    · exact (hok.steady p hp b hb q hq).1
  have hsteady : s.Steady := fun p hp b hb q hq => (hok.steady p (hsees p hp) b hb q hq).2
  have hunmarked : ∀ q ∈ c.typeParams, ¬IsMarked q.name := fun q hq =>
    ((hs.typeParams c.scope q (hs.ownTypes c hc ▸ hq)).2 (by rw [hs.className?_scope hc]; simp)).1
  refine ⟨fun q hq => ?_, fun p hp b hb q hq => ?_, fun q hq p hp => hunmarked p (hparam q hq p hp)⟩
  · obtain ⟨p, hp, hq⟩ := hq
    rcases hbinds.seesParam hframe hp with hp | hp
    · rcases hps.occurs p hp q hq with hq | ⟨r, hr, hq⟩
      · exact .inr (isMarked_of_letters hps hq)
      · exact .inl (hparam r (hsees r hr) q hq)
    · exact .inl (hparam p (hsees p hp) q hq)
  · rcases hbinds.seesParam hframe hp with hp | hp
    · exact hps.steady hsteady p hp b hb q hq
    · exact hsteady p hp b hb q hq

theorem Sound.isSteady_fresh (hs : s.Sound) (hc : c ∈ s.classes) (h : s.InFunc c.scope n)
    (hempty : (s.context.scope (c.scope.child n)).types = []) {taken : List String}
    (hps : FreshParams s true taken ps) (hp : p ∈ ps) : (Ty.param p).IsSteady c.typeParams := by
  have hok := hs.classes c hc
  have hsees : ∀ q, s.SeesParam q → q ∈ c.typeParams := fun q => hs.seesParam_method hc h hempty
  refine ⟨hps.plain p hp, fun q hq hletter => ?_⟩
  have hvaries : q ≠ p → IsInvariant q.variance := by
    intro hne
    rcases Ty.occurs_param.mp hq with rfl | ⟨b, hb, hocc⟩
    · exact absurd rfl hne
    · exact hps.steady (fun r hr b' hb' q' hq' => (hok.steady r (hsees r hr) b' hb' q' hq').2) p hp b hb q hocc
  rcases hps.occurs p hp q hq with hmem | ⟨r, hr, hocc⟩
  · exact absurd (isMarked_of_letters hps hmem) (not_isMarked_of_mem_capitalLetters hletter)
  · have hmem : q ∈ c.typeParams := by
      rcases Ty.occurs_param.mp hocc with rfl | ⟨b, hb, hocc⟩
      · exact hsees q hr
      · exact (hok.steady r (hsees r hr) b hb q hocc).1
    refine ⟨q, hmem, rfl, hvaries ?_⟩
    rintro rfl
    exact absurd (isMarked_of_letters hps hp) (not_isMarked_of_mem_capitalLetters hletter)

namespace InMethod

variable (h : s.InMethod c)
include h

theorem within (ht : Gen.Chosen s ok t) (hok : ∀ v, IsInvariant v → ok v) : t.Within c.typeParams ok :=
  fun q hq hletter => by
    rcases h.reaches q (ht.occurs q hq) with hc | hmarked
    · exact ⟨q, hc, rfl, (ht.varies h.steady q hq).elim (hok _) (·.2)⟩
    · exact absurd hmarked (not_isMarked_of_mem_capitalLetters hletter)

theorem tidy (ht : Gen.Chosen s ok t) : t.Tidy := fun q hq hunmarked p hp => by
  rcases h.reaches q (ht.occurs q hq) with hc | hmarked
  · exact h.unmarked q hc p hp
  · exact absurd hmarked hunmarked

end InMethod

/-- All letters are type parameters of the class. -/
def UsesAllLetters (c : ClassDecl) : Prop := ∀ letter ∈ capitalLetters, ∃ p ∈ c.typeParams, p.name = letter

/-- A result type that may be asked of a method: no parameter of the class varies in it, and names of
functions' parameters are used where they occur, or none are left for a function. -/
structure ResultFits (c : ClassDecl) (t : Ty) : Prop where
  within : t.Within c.typeParams IsInvariant
  tidy : t.Tidy ∨ UsesAllLetters c

/-- What has to hold of the signature of a method. -/
structure MethodSig (s : Session) (c : ClassDecl) (f : FuncDecl) : Prop where
  method : f.IsMethod
  overrides : f.isOverride → s.context.OverridesFunc c f
  respects : c.isGeneric ∨ c.isFinal = false → f.Respects c.typeParams

/-- No letter is left for a function in a class that uses all of them. -/
theorem FreshParams.eq_nil (hps : FreshParams s true s.visibleLetters ps)
    (hall : UsesAllLetters c) (hsees : ∀ p ∈ c.typeParams, ∃ q ∈ s.context.types s.frame.ns true, q.name = p.name) :
    ps = [] := by
  cases ps with
  | nil => rfl
  | cons p ps =>
    obtain ⟨letter, hletter, hfree, -⟩ := hps.letters p List.mem_cons_self
    obtain ⟨q, hq, hname⟩ := hall letter hletter
    obtain ⟨r, hr, hrname⟩ := hsees q hq
    refine absurd (List.mem_map.mpr ⟨r, hr, ?_⟩) hfree
    rw [hrname, hname]
    exact strip_of_mem_capitalLetters letter hletter

/-- **A method that is made from what is seen in its class** has a signature of the class. -/
theorem InMethod.methodSig (h : s₁.InMethod c) (hps : FreshParams s true s.visibleLetters ps)
    (hsees : ∀ p ∈ c.typeParams, ∃ q ∈ s.context.types s.frame.ns true, q.name = p.name)
    (hbounds : ∀ p ∈ ps, (Ty.param p).IsSteady c.typeParams)
    (hparams : ∀ p ∈ params, Gen.Chosen s₁ Gen.inputTypes.Allows p.ty) (hdistinct : (params.map (·.name)).Nodup)
    (hret : Gen.Chosen s₁ Gen.outputTypes.Allows ret ∨ ret.isVoid ∨ ResultFits c ret)
    {sig : Signature} (hprunes : Signature.Prunes ⟨ps, params, ret⟩ sig) (hf : f.typeParams = sig.typeParams)
    (hfparams : f.params = sig.params) (hfret : f.ret = sig.ret) (hoverride : f.isOverride = false) :
    s₁.MethodSig c f := by
  have hfparams := hfparams.trans hprunes.params
  have hfret := hfret.trans hprunes.ret
  have hname : ∀ p ∈ f.typeParams, ∃ q ∈ ps, q.name = p.name := by
    intro p hp
    rw [hf] at hp
    exact List.mem_map.mp (hprunes.names.subset (List.mem_map_of_mem hp))
  have hmarked : ∀ p ∈ f.typeParams, IsMarked p.name := by
    intro p hp
    obtain ⟨q, hq, hname⟩ := hname p hp
    exact hname ▸ isMarked_of_letters hps hq
  refine ⟨⟨hmarked, ?_, fun p hp => ?_, ?_⟩, fun ho => ?_, fun _ => ⟨fun p hp => ?_, ?_, fun p hp => ?_⟩⟩
  · rw [hf]
    exact hps.distinct.sublist hprunes.names
  · obtain ⟨t, ht, q, hq, hqname⟩ := hprunes.used p (hf ▸ hp)
    refine ⟨t, by rw [hfret, FuncDecl.paramTypes, hfparams]; exact ht, ?_⟩
    rw [← hqname]
    have hqmarked : IsMarked q.name := hqname ▸ hmarked p hp
    rcases List.mem_cons.mp ht with rfl | ht
    · rcases hret with hret | hret | hret
      · exact (h.tidy hret).uses hq hqmarked
      · cases hq <;> cases hret
      · rcases hret.tidy with htidy | hall
        · exact htidy.uses hq hqmarked
        · obtain ⟨r, hr, -⟩ := hname p hp
          rw [FreshParams.eq_nil hps hall hsees] at hr
          cases hr
    · obtain ⟨r, hr, rfl⟩ := List.mem_map.mp ht
      exact (h.tidy (hparams r hr)).uses hq hqmarked
  · rw [hfparams]
    exact hdistinct
  · rw [hoverride] at ho
    cases ho
  · rw [hfparams] at hp
    exact (h.within (hparams p hp) fun v hv => hv ▸ Gen.inputTypes.allows_invariant).mono fun v hv => hv.1 rfl
  · rw [hfret]
    rcases hret with hret | hret | hret
    · exact (h.within hret fun v hv => hv ▸ Gen.outputTypes.allows_invariant).mono fun v hv => hv.2 rfl
    · exact .of_not_occurs fun q hq => by cases hq <;> cases hret
    · exact hret.within.mono fun v hv => hv ▸ fun h => by cases h
  · rw [hf] at hp
    exact Ty.IsSteady.boundWithin (hprunes.closed _ (Ty.IsSteady.closed _)
      (fun l => Ty.isSteady_of_isGround (l.plain_builtin (k := .any) (by decide)) rfl) hbounds p hp)

end Session

end ProgramGen

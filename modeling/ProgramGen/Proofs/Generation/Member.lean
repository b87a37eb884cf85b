import ProgramGen.Proofs.Generation.Call
import ProgramGen.Synthesis.Member

/-!
# Fields and assignment

A field is read behind a receiver of a plain type. What is assigned changes: a shared or local variable
that can be assigned here, or a field that some class has and that is final in none.
-/

namespace ProgramGen

open Session

variable {s s' s₁ : Session} {t u : Ty} {e : Engine} {P : Permit} {a : Expr} {n : String} {c : ClassDecl}
variable {f : FieldDecl} {x : Target} {d : Nat}

namespace Session

/-! ## Fields that are read -/

/-- A field that can be read for an answer to a request that was made at the depth `d`; its receiver is
there, or can be asked for. -/
structure Gets (s : Session) (d : Nat) (t : Ty) (x : Target) : Prop where
  ty : x.ty.Plain
  receiver : ∀ a ∈ x.receiver, s.Operand d t a
  asked : x.receiver = none → x.receiverType.Plain

theorem Gets.step (h : s.Gets d t x) (hstep : s.Step P s') : s'.Gets d t x :=
  ⟨h.ty, fun a ha => (h.receiver a ha).mono hstep, h.asked⟩

theorem Sound.plain_field (hs : s.Sound) (hc : c ∈ s.classes) (hf : f ∈ c.fields) : f.ty.Plain :=
  hs.types _ _ (hs.field_mem hc hf)

/-- A field of a readable variable, and the class that has it. -/
theorem Sound.of_receiverFields {onlyMutable : Bool} (hs : s.Sound) (hd : d ≤ 2 * s.maxDepth)
    (h : x ∈ s.receiverFields onlyMutable) : s.Gets d t x ∧ x.receiver ≠ none ∧
      ∃ c ∈ s.classes, ∃ f ∈ c.fields, f.name = x.name ∧ (onlyMutable → f.isFinal = false) := by
  obtain ⟨y, hy, h⟩ := List.mem_flatMap.mp h
  split at h
  · cases h
  rename_i u hu
  have hplain := hs.plain_readable hy hu
  split at h
  · cases h
  rename_i c m hr
  obtain ⟨hc, -, rfl, -⟩ := of_receiver? hr
  obtain ⟨f, hf, rfl⟩ := List.mem_map.mp h
  obtain ⟨hf, hmutable⟩ := List.mem_filter.mp hf
  refine ⟨⟨(hs.plain_field hc hf).subst_all (.argMap Ty.Plain.closed hplain), fun a ha => ?_, nofun⟩, nofun,
    c, hc, f, hf, rfl, fun hyes => by simpa [hyes] using hmutable⟩
  cases ha
  refine (Stands.readable hs hy hplain).deeper ?_
  rw [exprDepth, if_pos hd]
  omega

end Session

namespace Gen

/-- **A field of a declared class** behind a receiver that can be asked for. -/
theorem classField_ensures (hs : s.Sound) (ht : t.Plain) (hc : c ∈ s.classes) (hf : f ∈ c.fields) (r : Session) :
    (classField t c f).Ensures OnlyDraws s fun o _ => ∀ x ∈ o, r.Gets d t x := by
  have hplain := hs.plain_field hc hf
  have hfilter : ∀ o : Option Target, (∀ x ∈ o, r.Gets d t x) → ∀ x ∈ o.filter (·.ty.isAssignable t), r.Gets d t x :=
    fun o ho x hx => ho x (Option.filter_eq_some_iff.mp hx).1
  unfold classField
  split
  · have hfixed : ∀ m ∈ (if f.ty.hasVariables then t.unify? f.ty else some ∅), m.All Ty.Plain := by
      intro m hm
      split at hm
      · exact Ty.Plain.closed.unify? ht hplain hm
      · cases hm
        exact .empty
    split
    · exact .pass (.pure (refl_of OnlyDraws s) nofun)
    rename_i fixed hsome
    refine (instantiate_ensures hs (hs.applicable_ctor hc) (hfixed fixed hsome) nofun).bind fun o s₁ _ ho => ?_
    split
    · exact .pass (.pure (refl_of OnlyDraws _) nofun)
    · rename_i receiver m
      obtain ⟨hreceiver, hm, -⟩ := ho _ rfl
      refine .pass (.pure (refl_of OnlyDraws _) (hfilter _ fun x hx => ?_))
      cases hx
      exact ⟨hplain.subst_all hm, nofun, fun _ => hreceiver⟩
  · rename_i hgeneric
    refine .pass (.pure (refl_of OnlyDraws s) (hfilter _ fun x hx => ?_))
    cases hx
    refine ⟨hplain, nofun, fun _ => ?_⟩
    have htype : c.type = .simple c.name c.supertypes := if_pos (by simpa [ClassDecl.isGeneric] using hgeneric)
    exact htype ▸ hs.plain_simple hc

theorem classFields_ensures {fs : List (ClassDecl × FieldDecl)} (hs : s.Sound) (ht : t.Plain)
    (hfs : ∀ y ∈ fs, y.1 ∈ s.classes ∧ y.2 ∈ y.1.fields) (r : Session) :
    (classFields t fs).Ensures OnlyDraws s fun xs _ => ∀ x ∈ xs, r.Gets d t x := by
  induction fs generalizing s with
  | nil => exact .pure (refl_of OnlyDraws s) nofun
  | cons y fs ih =>
    obtain ⟨c, f⟩ := y
    obtain ⟨hc, hf⟩ := hfs _ List.mem_cons_self
    refine (classField_ensures (d := d) hs ht hc hf r).bind fun o s₁ h₁ ho => ?_
    obtain ⟨stream, rfl⟩ := h₁
    refine (ih (Sound.atStream hs stream) fun z hz => hfs z (List.mem_cons_of_mem _ hz)).bind
      fun rest s₂ _ hrest => .pure (refl_of OnlyDraws _) (List.forall_mem_append.mpr ⟨fun x hx => ?_, hrest⟩)
    exact ho x (Option.mem_toList.mp hx)

theorem mem_finishedFields {y : ClassDecl × FieldDecl}
    (h : y ∈ s.finishedClasses.flatMap fun c => c.fields.map (c, ·)) : y.1 ∈ s.classes ∧ y.2 ∈ y.1.fields := by
  obtain ⟨c, hc, h⟩ := List.mem_flatMap.mp h
  obtain ⟨f, hf, rfl⟩ := List.mem_map.mp h
  exact ⟨List.mem_of_mem_filter hc, hf⟩

section Access

variable (hs : s.Sound) (ht : t.Plain) (he : s.Served e 1)
include hs ht he

/-- **A new class has the field that it is declared for.** -/
theorem newField_answers : (Gen.newField e t).Ensures (Step P) s fun x s' => s'.Gets d t x := by
  unfold Gen.newField
  refine (genMatchingClass_ensures hs he (.inl ht) fun _ => ht).bind fun r s₁ h₁ hr => .get ?_
  obtain ⟨c, f, hc, hf⟩ := hr.field rfl
  extract_lets field
  have hfield : field = some f := by
    show (s₁.class? r.1.name).bind _ = _
    rw [hc]
    exact hf
  rw [hfield]
  exact .pure (.refl h₁.sound) ⟨ht, nofun, fun _ => hr.plain⟩

/-- **The value of a field.** -/
theorem genFieldAccess_ensures (hdepth : s.frame.depth ≤ 2 * s.maxDepth) (hP : P.Covers s.frame.ns) :
    (genFieldAccess e t).Ensures (Step P) s fun a s' => s'.Answers s.frame.depth t a := by
  unfold genFieldAccess
  refine .get ?_
  extract_lets direct rest
  have hrest : ∀ (x : Target) (s₁ : Session), s.Step P s₁ → s₁.Gets s.frame.depth t x →
      (rest x).Ensures (Step P) s₁ fun a s' => s'.Answers s.frame.depth t a := by
    intro x s₁ h₁ hx
    have hend : ∀ (receiver : Expr) (s₂ : Session), s₁.Step P s₂ → s₂.Operand s.frame.depth t receiver →
        (pure (.field receiver x.name x.ty) : Gen Expr).Ensures (Step P) s₂ fun a s' => s'.Answers s.frame.depth t a :=
      fun receiver s₂ h₂ hreceiver => .pure (.refl h₂.sound) (.node ht.isVoid rfl hx.ty rfl
        (List.forall_mem_singleton.mpr (.inl hx.ty)) (fun _ _ => trivial) (fun _ _ => trivial)
        (List.forall_mem_singleton.mpr hreceiver))
    unfold rest
    split
    · rename_i r hr
      exact .pass (hend r s₁ (.refl h₁.sound) (hx.receiver r hr))
    · rename_i hnone
      have hreceiver := hx.asked hnone
      refine (nestedExpr_ensures h₁.sound (he.step h₁).exprs (.inl hreceiver) (h₁.frame ▸ hP)).bind fun r s₂ h₂ hr =>
        hend r s₂ h₂ ?_
      rw [h₁.frame] at hr
      exact hr.operand hreceiver.isVoid ((h₁.trans h₂).maxDepth_eq ▸ hdepth) (Nat.lt_succ_self _)
  refine (Ensures.pick.drawStep hs).bind fun chosen s₁ h₁ hpick => ?_
  split
  · rename_i x
    exact .pass (hrest x s₁ h₁ ((hs.of_receiverFields hdepth (List.mem_of_mem_filter (hpick.2.2 x rfl))).1.step h₁))
  · refine .get (((classFields_ensures (d := s.frame.depth) h₁.sound ht (fun y hy => mem_finishedFields hy) s₁).drawStep h₁.sound).bind
      fun xs s₂ h₂ hxs => ?_)
    refine (Ensures.pick.drawStep h₂.sound).bind fun chosen s₃ h₃ hpick => ?_
    split
    · rename_i x
      exact .pass (hrest x s₃ (h₁.trans (h₂.trans h₃)) ((hxs.2 x (hpick.2.2 x rfl)).step (h₂.trans h₃)))
    · have h₁₃ := h₁.trans (h₂.trans h₃)
      exact (newField_answers h₃.sound ht (he.step h₁₃)).bind fun x s₄ h₄ hx => hrest x s₄ (h₁₃.trans h₄) hx

end Access

end Gen

/-! ## Assignment -/

namespace Session

/-- Something that can be assigned in answer to a request that was made at the depth `d`. -/
structure Assigns (s : Session) (d : Nat) (t : Ty) (x : Target) : Prop where
  ty : x.ty.Plain
  receiver : ∀ a ∈ x.receiver, s.Operand d t a
  target : x.receiver = none → s.Shared s.frame.ns x.name ∨ s.LocalTargets x.name
  field : x.receiver ≠ none → s.HasField x.name false

theorem Assigns.step (h : s.Assigns d t x) (hstep : s.Step P s') : s'.Assigns d t x where
  ty := h.ty
  receiver a ha := (h.receiver a ha).mono hstep
  target hnone := by
    rw [hstep.frame]
    exact (h.target hnone).imp hstep.shared (localTargets_mono hstep.toLeads hstep.frame)
  field hsome := by
    obtain ⟨c, hc, f, hf, hname, hfinal⟩ := h.field hsome
    obtain ⟨c', hc', -, f', hf', hrest⟩ := hstep.members c.name _ ⟨c, hc, rfl, f, hf, hname, hfinal⟩
    exact ⟨c', hc', f', hf', hrest⟩

/-- **What some class has as a changing field is final in none**, whatever the session grows into. -/
theorem Sound.hasMutableField (hs : s.Sound) (h : s.HasField n false) (hl : s.Leads s') :
    s'.context.HasMutableField n := by
  obtain ⟨c, hc, f, hf, hname, hfinal⟩ := h
  obtain ⟨c', hc', -, f', hf', hname', -⟩ := hl.members c.name _ ⟨c, hc, rfl, f, hf, hname, hfinal⟩
  refine ⟨⟨c', hc', f', hf', hname'⟩, fun d hd g hg hgname => ?_⟩
  have hspent : s.Spent n := hname ▸ hs.spent_name (hs.field_mem hc hf)
  exact hs.hasField_unique (hl.fields n g.isFinal hspent ⟨d, hd, g, hg, hgname, rfl⟩) ⟨c, hc, f, hf, hname, hfinal⟩

/-- Where an expression may be moved into a variable, a variable has a place. -/
theorem hasPlace_of_canHoist {o : ExprOpts} (h : s.canHoist t o) : s.HasPlace := by
  simp only [canHoist, Bool.and_eq_true, Bool.not_eq_true', Bool.and_eq_false_imp, beq_iff_eq] at h
  exact ⟨h.1.1.1.2, h.1.2⟩

end Session

namespace Gen

section Assignment

variable (hs : s.Sound) (he : s.Served e 1) (hdepth : s.frame.depth ≤ 2 * s.maxDepth) (hP : P.Covers s.frame.ns)
include hs he hdepth hP

/-- **A new target**: a field of a declared class behind a new receiver, or a new variable. -/
theorem newAssignmentTarget_ensures :
    (newAssignmentTarget e).Ensures (Step P) s fun r s' => ∀ x ∈ r, s'.Assigns s.frame.depth t x := by
  unfold newAssignmentTarget
  refine .get ?_
  extract_lets l rest
  have hrest : ∀ (fields : List (ClassDecl × FieldDecl)) (s₁ : Session), s.Step P s₁ →
      (∀ y ∈ fields, y.1 ∈ s₁.classes ∧ y.2 ∈ y.1.fields ∧ y.2.isFinal = false) →
      (rest fields).Ensures (Step P) s₁ fun r s' => ∀ x ∈ r, s'.Assigns s.frame.depth t x := by
    intro fields s₁ h₁ hfields
    refine (Ensures.pick.drawStep h₁.sound).bind fun chosen s₂ h₂ hpick => ?_
    have h₁₂ := h₁.trans h₂
    obtain ⟨⟨stream, rfl⟩, -, hchosen⟩ := hpick
    split
    · rename_i c f
      obtain ⟨hc, hf, hfinal⟩ := hfields _ (hchosen _ rfl)
      have hplain := h₁.sound.plain_field hc hf
      refine ((instantiateClass_ensures h₂.sound hc).drawStep h₂.sound).bind fun o s₃ h₃ ⟨_, ho⟩ => ?_
      split
      · exact .pure (.refl h₃.sound) nofun
      rename_i receiverType m
      obtain ⟨-, hreceiver, hm⟩ := ho _ rfl
      have h₁₃ := h₁₂.trans h₃
      refine (nestedExpr_ensures h₃.sound (he.step h₁₃).exprs (.inl hreceiver.plain) (h₁₃.frame ▸ hP)).bind
        fun receiver s₄ h₄ hr => .pure (.refl h₄.sound) fun x hx => ?_
      rw [h₁₃.frame] at hr
      cases hx
      refine ⟨hplain.subst_all hm, fun a ha => ?_, (fun hnone => by cases hnone), fun _ => ?_⟩
      · cases ha
        exact hr.operand hreceiver.plain.isVoid ((h₁₃.trans h₄).maxDepth_eq ▸ hdepth) (Nat.lt_succ_self _)
      · obtain ⟨c', hc', -, f', hf', hrest⟩ := (h₃.trans h₄).members c.name _ ⟨c, hc, rfl, f, hf, rfl, hfinal⟩
        exact ⟨c', hc', f', hf', hrest⟩
    · refine ((selectType_chosen h₂.sound rfl).drawStep h₂.sound).bind fun u s₃ h₃ ⟨_, hu⟩ => .get ?_
      have h₁₃ := h₁₂.trans h₃
      split
      · exact .pure (.refl h₃.sound) nofun
      rename_i hhoist
      simp only [Bool.not_eq_true', Bool.not_eq_false] at hhoist
      have hplace := hasPlace_of_canHoist hhoist
      refine genChangeable_step h₃.sound hu.plain (he.step h₁₃).exprs (.inr hplace) (h₁₃.frame ▸ hP)
        fun v s₄ h₄ hv hmutable => .pure (.refl h₄.sound) fun x hx => ?_
      cases hx
      rw [← h₄.frame] at hmutable
      refine ⟨hv, (fun _ ha => by cases ha), fun _ => (h₄.sound.assignableVar_here ?_ hmutable).target,
        fun h => absurd rfl h⟩
      rw [h₄.frame]
      exact hplace.body
  refine (Ensures.coin.drawStep hs).bind fun byField s₁ h₁ _ => ?_
  split
  · refine .get (.pass (hrest _ s₁ h₁ fun y hy => ?_))
    obtain ⟨hy, hfinal⟩ := List.mem_filter.mp hy
    obtain ⟨hc, hf⟩ := mem_finishedFields hy
    exact ⟨hc, hf, by simpa using hfinal⟩
  · exact .pass (hrest [] s₁ h₁ nofun)

/-- **Something is assigned**, or a function is called for its effect. -/
theorem genAssignment_ensures (ht : t.isVoid) :
    (genAssignment e).Ensures (Step P) s fun a s' => s'.Answers s.frame.depth t a := by
  unfold genAssignment
  refine .get ?_
  extract_lets void vars rest
  have hvoid : void.Requested := s.language.requested_voidType
  have hrest : ∀ (r : Option Target) (s₁ : Session), s.Step P s₁ → (∀ x ∈ r, s₁.Assigns s.frame.depth t x) →
      (rest r).Ensures (Step P) s₁ fun a s' => s'.Answers s.frame.depth t a := by
    intro r s₁ h₁ hr
    have hdepth₁ := h₁.depth_le hdepth
    have hP₁ : P.Covers s₁.frame.ns := h₁.frame ▸ hP
    unfold rest
    split
    · refine (genFuncCall_ensures h₁.sound (he.step h₁) hdepth₁ hP₁ hvoid).mono fun a s₂ h₂ ha => ?_
      rw [h₁.frame] at ha
      refine ha.of_request (s.language.isVoid_voidType.trans ht.symm) ?_
      rw [exprDepth, exprDepth, if_pos, if_pos] <;> exact (h₁.trans h₂).maxDepth_eq ▸ hdepth
    rename_i x
    have hx := hr x rfl
    refine (nestedExpr_ensures h₁.sound (he.step h₁).exprs (.inl hx.ty) hP₁).bind fun value s₂ h₂ hvalue =>
      .pure (.refl h₂.sound) ?_
    rw [h₁.frame] at hvalue
    have hvalue : s₂.Operand s.frame.depth t value :=
      hvalue.operand hx.ty.isVoid ((h₁.trans h₂).maxDepth_eq ▸ hdepth) (Nat.lt_succ_self _)
    have hx₂ := hx.step h₂
    refine .of_operands (fun _ h => by cases h) rfl (fun _ h => by cases h) (fun s' hl v hv => ?_) (fun _ _ => trivial) ?_
    · cases hreceiver : x.receiver with
      | none =>
        refine h₂.sound.isTarget_access (hx₂.target hreceiver) hl hv ((hx₂.target hreceiver).imp_right fun h => ?_)
        unfold Targets
        rwa [if_pos ht]
      | some r => exact h₂.sound.hasMutableField (hx₂.field (by rw [hreceiver]; exact Option.some_ne_none r)) hl
    · exact List.forall_mem_append.mpr ⟨fun a ha => hx₂.receiver a (Option.mem_toList.mp ha),
        List.forall_mem_singleton.mpr hvalue⟩
  refine (Ensures.pick.drawStep hs).bind fun chosen s₁ h₁ hpick => ?_
  split
  · rename_i x
    refine .pass (hrest (some x) s₁ h₁ fun y hy => ?_)
    cases hy
    refine Assigns.step ?_ h₁
    rcases List.mem_append.mp (hpick.2.2 x rfl) with hx | hx
    · obtain ⟨d, hd, hx⟩ := List.mem_filterMap.mp hx
      obtain ⟨u, hu, rfl⟩ := Option.map_eq_some_iff.mp hx
      obtain ⟨y, hy, hassign⟩ := List.mem_filterMap.mp hd
      obtain ⟨-, hdecl⟩ := Option.ite_none_right_eq_some.mp hassign
      cases hdecl
      exact ⟨hs.plain_varType (Context.mem_scopedVars hy).2.1 hu, (fun _ h => by cases h),
        fun _ => Sound.target_of_mem_assignableVars hs hd, fun h => absurd rfl h⟩
    · obtain ⟨hgets, hsome, c, hc, f, hf, hname, hfinal⟩ := hs.of_receiverFields (t := t) hdepth hx
      exact ⟨hgets.ty, hgets.receiver, fun h => absurd h hsome, fun _ => ⟨c, hc, f, hf, hname, hfinal rfl⟩⟩
  · exact (newAssignmentTarget_ensures (t := t) h₁.sound (he.step h₁) (h₁.depth_le hdepth) (h₁.frame ▸ hP)).bind
      fun r s₂ h₂ hr => hrest r s₂ (h₁.trans h₂) (h₁.frame ▸ hr)

end Assignment

end Gen

end ProgramGen

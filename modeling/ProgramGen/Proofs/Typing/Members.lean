import ProgramGen.Proofs.Typing.Calls
import ProgramGen.Synthesis.Member

/-!
# Typed fields and assignments

A field is read with a type that is assignable to what is asked for, seen through the type of its
receiver. What is assigned has the type of its target.
-/

namespace ProgramGen

variable {s s' : Session} {t : Ty} {e : Engine} {c : ClassDecl} {target : Target}

/-- The types of an access are over the vocabulary. -/
structure Target.Over (V : Vocabulary) (target : Target) : Prop where
  receiverType : target.receiverType.Over V
  ty : target.ty.Over V

/-- The type of a class without parameters. -/
theorem Session.WellTyped.type_over (hs : s.WellTyped) (hc : c ∈ s.classes)
    (hplain : ¬c.isGeneric) : c.type.Over s.vocabulary := by
  rcases hs.offered_type hc with h | ⟨d, -, h⟩
  · exact h
  · unfold ClassDecl.type at h
    rw [if_pos (by simpa [ClassDecl.isGeneric] using hplain)] at h
    cases h

/-- The fields of readable variables are over the session. -/
theorem Session.WellTyped.receiverFields_over {onlyMutable : Bool} (hs : s.WellTyped)
    (h : target ∈ s.receiverFields onlyMutable) : target.Over s.vocabulary := by
  obtain ⟨d, hd, h⟩ := List.mem_flatMap.mp h
  split at h
  · cases h
  · rename_i t ht
    split at h
    · cases h
    · rename_i c m hreceiver
      have ht := hs.readable_over hd ht
      obtain ⟨hc, hm⟩ := mem_of_receiver? ht hreceiver
      obtain ⟨f, hf, rfl⟩ := List.mem_map.mp h
      exact ⟨ht, hm.subst (hs.field_over hc (List.mem_of_mem_filter hf))⟩

/-- The types of variables that can be assigned are over the session. -/
theorem Session.WellTyped.assignable_over {d : Decl} (hs : s.WellTyped) (hd : d ∈ s.assignableVars)
    (ht : d.varType? = some t) : t.Over s.vocabulary := by
  obtain ⟨⟨m, d'⟩, hmem, h⟩ := List.mem_filterMap.mp hd
  obtain ⟨-, h⟩ := Option.ite_none_right_eq_some.mp h
  cases h
  obtain ⟨-, hdecl, -⟩ := Context.mem_scopedVars hmem
  refine hs.over_types m d hdecl t ?_
  cases d <;> cases ht <;> exact List.mem_singleton_self _

namespace Gen

/-! ## Reading a field -/

/-- A field of a class, seen so that it fits. -/
theorem classField_typed {f : FieldDecl} (hs : s.WellTyped) (ht : t.Over s.vocabulary)
    (hc : c ∈ s.classes) (hf : f ∈ c.fields) :
    (classField t c f).Yields Session.OnlyDraws s fun o _ =>
      ∀ target ∈ o, target.Over s.vocabulary ∧ target.ty.isAssignable t := by
  unfold classField
  extract_lets accept
  have hfield := hs.field_over hc hf
  have haccept : ∀ (s' : Session) (o : Option Target), (∀ target ∈ o, target.Over s.vocabulary) →
      (accept o).Yields Session.OnlyDraws s' fun o _ =>
        ∀ target ∈ o, target.Over s.vocabulary ∧ target.ty.isAssignable t := by
    refine fun s' o ho => .pure fun target htarget => ?_
    obtain ⟨hmem, hassign⟩ := Option.filter_eq_some_iff.mp htarget
    exact ⟨ho target hmem, hassign⟩
  split
  · rename_i hgeneric
    split
    · exact .pass (haccept s none nofun)
    · rename_i fixed hfixed
      have hfixedOver : fixed.Over s.vocabulary := by
        split at hfixed
        · exact ht.unify? hfield hfixed
        · cases hfixed
          exact .empty
      refine (instantiate_typed hs (.inr ⟨c, hc, hgeneric, rfl⟩) hfixedOver).bind fun r s₁ _ hr => ?_
      split
      · exact .pass (haccept s₁ none nofun)
      · rename_i receiver m
        obtain ⟨hreceiver, hm, -⟩ := hr _ rfl
        refine .pass (haccept s₁ _ fun target htarget => ?_)
        cases htarget
        exact ⟨hreceiver, hm.subst hfield⟩
  · rename_i hplain
    refine .pass (haccept s _ fun target htarget => ?_)
    cases htarget
    exact ⟨hs.type_over hc hplain, hfield⟩

theorem classFields_typed {fields : List (ClassDecl × FieldDecl)} (hs : s.WellTyped)
    (ht : t.Over s.vocabulary) (hfields : ∀ x ∈ fields, x.1 ∈ s.classes ∧ x.2 ∈ x.1.fields) :
    (classFields t fields).Yields Session.OnlyDraws s fun targets _ =>
      ∀ target ∈ targets, target.Over s.vocabulary ∧ target.ty.isAssignable t := by
  induction fields generalizing s with
  | nil => exact .pure nofun
  | cons x fields ih =>
    obtain ⟨c, f⟩ := x
    obtain ⟨⟨hc, hf⟩, hfields⟩ := List.forall_mem_cons.mp hfields
    rw [classFields]
    refine (classField_typed hs ht hc hf).bind fun o s₁ h₁ ho => ?_
    obtain ⟨stream, rfl⟩ := h₁
    refine (ih (hs.atStream stream) ht hfields).bind fun others s₂ _ hothers => .pure ?_
    exact List.forall_mem_append.mpr ⟨fun target h => ho target (Option.mem_toList.mp h), hothers⟩

theorem finishedFields_yields : finishedFields.Yields Session.OnlyDraws s fun xs _ =>
    ∀ x ∈ xs, x.1 ∈ s.classes ∧ x.2 ∈ x.1.fields := by
  unfold finishedFields
  refine .get (.pure fun x hx => ?_)
  obtain ⟨c, hc, hx⟩ := List.mem_flatMap.mp hx
  obtain ⟨f, hf, rfl⟩ := List.mem_map.mp hx
  exact ⟨List.mem_of_mem_filter hc, hf⟩

/-- A field of a class that is declared for a type has that type. -/
theorem newField_typed (he : e.Sound) (hs : s.WellTyped) (ht : t.Over s.vocabulary) :
    (newField e t).Yields Session.Typed s fun target s' =>
      target.receiverType.Over s'.vocabulary ∧ target.ty = t := by
  unfold newField
  refine (genMatchingClass_typed he hs ht).bind fun r s₁ _ hr => ?_
  obtain ⟨receiver, memberType⟩ := r
  refine .get ?_
  extract_lets field
  clear_value field
  split
  · exact .pure ⟨hr.1, rfl⟩
  · exact .throw

/-- **A field that is read fits.** -/
theorem genFieldAccess_typed (he : e.Sound) (hs : s.WellTyped) (ht : t.Over s.vocabulary) :
    (genFieldAccess e t).Yields Session.Typed s fun a s' => a.Fits s'.vocabulary t := by
  unfold genFieldAccess
  refine .get ?_
  extract_lets direct access
  have haccess : ∀ (s₁ : Session) (target : Target), s.Grows s₁ → s₁.WellTyped →
      target.Over s₁.vocabulary → target.ty.isAssignable t →
      (access target).Yields Session.Typed s₁ fun a s' => a.Fits s'.vocabulary t := by
    intro s₁ target hgrows hs₁ htarget hassign
    unfold access
    split
    · exact .pass (.pure (.of_assignable htarget.ty rfl hassign))
    · refine (nested_typed (Q := fun _ _ => True) hs₁ fun s₂ hs₂ hv => ?_).bind
        fun receiver s₂ h₂ _ => .pure ?_
      · exact (he.expr hs₂ (hv ▸ htarget.receiverType)).mono fun _ _ _ _ => trivial
      · exact .of_assignable ((h₂ hs₁).1.over htarget.ty) rfl hassign
  refine Yields.bind (Yields.of_onlyDraws Yields.pick) fun picked s₁ _ h₁ => ?_
  obtain ⟨⟨stream₁, rfl⟩, hpicked⟩ := h₁
  have hs₁ := hs.atStream stream₁
  split
  · rename_i target
    obtain ⟨hmem, hassign⟩ := List.mem_filter.mp (hpicked target rfl)
    exact .pass (haccess _ target (.atStream s stream₁) hs₁ (hs.receiverFields_over hmem) hassign)
  refine Yields.bind (Yields.of_onlyDraws finishedFields_yields) fun fields s₂ _ h₂ => ?_
  obtain ⟨⟨stream₂, rfl⟩, hfields⟩ := h₂
  have hs₂ := hs₁.atStream stream₂
  refine Yields.bind (Yields.of_onlyDraws (classFields_typed hs₂ ht hfields)) fun targets s₃ _ h₃ => ?_
  obtain ⟨⟨stream₃, rfl⟩, htargets⟩ := h₃
  have hs₃ := hs₂.atStream stream₃
  refine Yields.bind (Yields.of_onlyDraws Yields.pick) fun found s₄ _ h₄ => ?_
  obtain ⟨⟨stream₄, rfl⟩, hfound⟩ := h₄
  have hs₄ := hs₃.atStream stream₄
  have hgrows₄ := ((Session.Grows.atStream s stream₁).trans (.atStream _ stream₂)).trans
    ((Session.Grows.atStream _ stream₃).trans (.atStream _ stream₄))
  split
  · rename_i target
    obtain ⟨htarget, hassign⟩ := htargets target (hfound target rfl)
    exact .pass (haccess _ target hgrows₄ hs₄ htarget hassign)
  · refine (newField_typed he hs₄ ht).bind fun target s₅ h₅ hnew => ?_
    obtain ⟨hgrows₅, hs₅⟩ := h₅ hs₄
    obtain ⟨hreceiver, hty⟩ := hnew
    refine haccess s₅ target (hgrows₄.trans hgrows₅) hs₅ ⟨hreceiver, ?_⟩ ?_
    · exact hty ▸ hgrows₅.over ht
    · rw [hty]
      exact Ty.isAssignable_refl t

/-! ## Assignment -/

/-- What is made to be assigned is over the session. -/
theorem newAssignmentTarget_typed (he : e.Sound) (hs : s.WellTyped) :
    (newAssignmentTarget e).Yields Session.Typed s fun o s' =>
      ∀ target ∈ o, target.ty.Over s'.vocabulary := by
  unfold newAssignmentTarget
  refine .get ?_
  extract_lets l choose
  have hchoose : ∀ (stream : Stream) (fields : List (ClassDecl × FieldDecl)),
      (∀ x ∈ fields, x.1 ∈ s.classes ∧ x.2 ∈ x.1.fields) →
      (choose fields).Yields Session.Typed (s.atStream stream) fun o s' =>
        ∀ target ∈ o, target.ty.Over s'.vocabulary := by
    intro stream fields hfields
    have hs₁ := hs.atStream stream
    refine Yields.bind (Yields.of_onlyDraws Yields.pick) fun picked s₂ _ h₂ => ?_
    obtain ⟨⟨stream₂, rfl⟩, hpicked⟩ := h₂
    have hs₂ := hs₁.atStream stream₂
    split
    · rename_i c f
      obtain ⟨hc, hf⟩ := hfields _ (hpicked _ rfl)
      refine Yields.bind (Yields.of_onlyDraws (instantiateClass_typed hs₂ hc)) fun r s₃ _ h₃ => ?_
      obtain ⟨⟨stream₃, rfl⟩, hr⟩ := h₃
      have hs₃ := hs₂.atStream stream₃
      split
      · exact .pure nofun
      · rename_i receiverType m
        obtain ⟨hreceiver, hm, -⟩ := hr _ rfl
        refine (nested_typed (Q := fun _ _ => True) hs₃ fun s₄ hs₄ hv => ?_).bind
          fun receiver s₄ h₄ _ => .pure fun target htarget => ?_
        · exact (he.expr hs₄ (hv ▸ hreceiver)).mono fun _ _ _ _ => trivial
        · cases htarget
          exact (h₄ hs₃).1.over (hm.subst (hs.field_over hc hf))
    · refine Yields.bind (Yields.of_onlyDraws (selectType_typed hs₂)) fun t s₃ _ h₃ => ?_
      obtain ⟨⟨stream₃, rfl⟩, ht, -⟩ := h₃
      have hs₃ := hs₂.atStream stream₃
      refine .get ?_
      split
      · exact .pure nofun
      · refine (genVariableDecl_typed he hs₃ fun u hu => ?_).bind fun v s₄ h₄ ⟨hv, _⟩ => ?_
        · exact Option.some.inj hu ▸ ht
        obtain ⟨-, hs₄⟩ := h₄ hs₃
        refine (makeMutable_typed hs₄).bind fun _ s₅ h₅ _ => .pure fun target htarget => ?_
        cases htarget
        exact (h₅ hs₄).1.over hv
  refine Yields.bind (Yields.of_onlyDraws Yields.coin) fun useField s₁ _ h₁ => ?_
  obtain ⟨⟨stream₁, rfl⟩, -⟩ := h₁
  split
  · refine Yields.bind (Yields.of_onlyDraws finishedFields_yields) fun fields s₂ _ h₂ => .pass ?_
    obtain ⟨⟨stream₂, rfl⟩, hfields⟩ := h₂
    exact hchoose stream₂ _ fun x hx => hfields x (List.mem_of_mem_filter hx)
  · exact .pass (hchoose stream₁ [] nofun)

/-- An assignment has no value, and what stands in for it fits. -/
theorem genAssignment_typed (he : e.Sound) (hs : s.WellTyped) :
    (genAssignment e).Yields Session.Typed s fun a s' =>
      a.Fits s'.vocabulary s.language.voidType := by
  unfold genAssignment
  refine .get ?_
  extract_lets void vars assign
  have hvoid : void.Over s.vocabulary := s.over_builtin .void
  have hassign : ∀ (s₁ : Session) (o : Option Target), s.Grows s₁ → s₁.WellTyped →
      (∀ target ∈ o, target.ty.Over s₁.vocabulary) →
      (assign o).Yields Session.Typed s₁ fun a s' => a.Fits s'.vocabulary void := by
    intro s₁ o hgrows hs₁ ho
    unfold assign
    split
    · exact genFuncCall_typed he hs₁ (hgrows.over hvoid)
    · rename_i target
      refine (nested_typed (Q := fun _ _ => True) hs₁ fun s₂ hs₂ hv => ?_).bind
        fun value _ _ _ => .pure (.of_none rfl)
      exact (he.expr hs₂ (hv ▸ ho target rfl)).mono fun _ _ _ _ => trivial
  have hvars : ∀ target ∈ vars ++ s.receiverFields true, target.ty.Over s.vocabulary := by
    intro target h
    rcases List.mem_append.mp h with h | h
    · obtain ⟨d, hd, h⟩ := List.mem_filterMap.mp h
      obtain ⟨t, ht, rfl⟩ := Option.map_eq_some_iff.mp h
      exact hs.assignable_over hd ht
    · exact (hs.receiverFields_over h).ty
  refine Yields.bind (Yields.of_onlyDraws Yields.pick) fun picked s₁ _ h₁ => ?_
  obtain ⟨⟨stream, rfl⟩, hpicked⟩ := h₁
  have hs₁ := hs.atStream stream
  split
  · rename_i target
    have htarget : ∀ x ∈ some target, x.ty.Over s.vocabulary := fun x hx => hvars x (hpicked x hx)
    exact .pass (hassign _ (some target) (.atStream s stream) hs₁ htarget)
  · refine (newAssignmentTarget_typed he hs₁).bind fun o s₂ h₂ ho => ?_
    obtain ⟨hgrows₂, hs₂⟩ := h₂ hs₁
    exact hassign s₂ o ((Session.Grows.atStream s stream).trans hgrows₂) hs₂ ho

end Gen

end ProgramGen

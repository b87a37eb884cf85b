import ProgramGen.Proofs.Binding.Composition
import ProgramGen.Proofs.Program.Members
import ProgramGen.Proofs.Typing.Functions
import ProgramGen.Synthesis.Class

/-!
# Typed classes

What a class inherits is applied to arguments that mention its own parameters only, none of which
varies, and no class of the language has its name. So a class that is declared enters a consistent
table, and the members that it overrides are seen through types over that table.
-/

namespace ProgramGen

variable {s s' : Session} {t u : Ty} {e : Engine} {m : Subst} {c : ClassDecl} {ns : Namespace}
variable {l : Language} {w : String}

/-! ## Names -/

/-- A name that is drawn, once capitalized, is not the name of a class of the language. -/
theorem Language.HasClass.name_ne_capitalize {p : WordPool} {d : TypeCtor} (hd : l.HasClass d)
    (hp : p.Sound) (hw : p.Offers w) : d.name ≠ capitalize w := by
  have hlower := hw.startsLower hp
  have hplain : ∀ v, StartsLower v → isPlainWord v = false →
      (textBytes "ident").isPrefixOf (textBytes v) = false → capitalize v ≠ capitalize w := by
    intro v hv hplain hident h
    exact hw.ne hp hplain hident (capitalize_injective hlower hv h.symm)
  have hnot : ∀ v, StartsLower v → v ≠ capitalize w := by
    rintro v hv rfl
    exact not_startsLower_capitalize hlower hv
  -- A library class has a name no word of the pool gives, as it is a word held back, starts
  -- lowercase, or ends in a number.
  cases hd with
  | array =>
    cases l
    · exact hplain "array" ⟨'a', _, rfl, rfl⟩ (by decide +kernel) (by decide +kernel)
    · exact hplain "array" ⟨'a', _, rfl, rfl⟩ (by decide +kernel) (by decide +kernel)
  | iterator =>
    cases l
    · exact hplain "iterator" ⟨'i', _, rfl, rfl⟩ (by decide +kernel) (by decide +kernel)
    · exact hnot _ ⟨'j', _, rfl, rfl⟩
  | arrayList =>
    cases l
    · exact hplain "arrayList" ⟨'a', _, rfl, rfl⟩ (by decide +kernel) (by decide +kernel)
    · exact hnot _ ⟨'j', _, rfl, rfl⟩
  | function n =>
    have hv : StartsLower ("function" ++ toString n) :=
      .append ⟨'f', ['u', 'n', 'c', 't', 'i', 'o', 'n'], rfl, rfl⟩ _
    have hname : (l.functionCtor n).name = capitalize ("function" ++ toString n) := by
      have hlist : ("function" ++ toString n).toList =
          'f' :: (['u', 'n', 'c', 't', 'i', 'o', 'n'] ++ (toString n).toList) := by simp
      rw [← String.toList_inj, toList_capitalize hlist rfl]
      simp [Language.functionCtor]
    rw [hname]
    intro h
    obtain rfl := capitalize_injective hv hlower h
    rcases hw.cases hp with h | ⟨k, h⟩
    · exact append_notMem_wordList (.tail _ (.head _)) _ h
    · have hfirst := congrArg (fun v : String => v.toList.head?) h
      simp [WordPool.numberedName] at hfirst

/-! ## Supertypes -/

theorem Session.mem_of_class? {name : String} (h : s.class? name = some c) :
    c.name = name ∧ c ∈ s.classes :=
  Context.mem_of_class? h

theorem Session.WellTyped.field_over (hs : s.WellTyped) (hc : c ∈ s.classes) {f : FieldDecl}
    (hf : f ∈ c.fields) : f.ty.Over s.vocabulary :=
  hs.class_over hc _ (ClassDecl.mem_types.mpr (.inr (.inl ⟨f, hf, rfl⟩)))

theorem Session.WellTyped.func_over (hs : s.WellTyped) (hc : c ∈ s.classes) {f : FuncDecl}
    (hf : f ∈ c.funcs) : ∀ t ∈ f.types, t.Over s.vocabulary := fun t ht =>
  hs.class_over hc t (ClassDecl.mem_types.mpr (.inr (.inr ⟨f, hf, ht⟩)))

namespace Gen

/-- Arguments for the constructor of a superclass. -/
theorem genSuperArgs_typed (he : e.Sound) (hs : s.WellTyped)
    (hfields : ∀ f ∈ c.fields, f.ty.Over s.vocabulary) (hm : m.Over s.vocabulary) :
    (genSuperArgs e c m).Yields Session.Typed s fun _ _ => True := by
  unfold genSuperArgs
  refine inFrame_typed hs hs.rooted fun s₁ _ hs₁ hv => ?_
  refine (Yields.mapM (G := fun _ _ _ => True) (fun f hf s₂ h₂ => ?_) fun _ _ _ _ _ _ => trivial).mono
    fun _ _ _ _ => trivial
  obtain ⟨hgrows, hs₂⟩ := h₂ hs₁
  have hfield : f.ty.Over s₂.vocabulary := hgrows.over (hv ▸ hfields f hf)
  have hm₂ : m.Over s₂.vocabulary := hm.mono fun t ht => hgrows.over (hv ▸ ht)
  exact (he.expr hs₂ (hm₂.subst hfield)).mono fun _ _ _ _ => trivial

theorem instantiateClass_typed (hs : s.WellTyped) (hc : c ∈ s.classes) :
    (instantiateClass c).Yields Session.OnlyDraws s fun r _ => ∀ x ∈ r, x.1.Over s.vocabulary ∧
      x.2.Over s.vocabulary ∧ x.1.NamesIn s.InvariantName := by
  unfold instantiateClass
  split
  · refine (instantiate_typed hs (.inr ⟨c, hc, ‹_›, rfl⟩) .empty).mono fun r _ _ hr x hx => ?_
    obtain ⟨hover, hm, hnames⟩ := hr x hx
    exact ⟨hover, hm, hnames rfl⟩
  · rename_i hplain
    refine .pure fun x hx => ?_
    cases hx
    have htype : c.type = .simple c.name c.supertypes := by
      unfold ClassDecl.type
      rw [if_pos (by simpa [ClassDecl.isGeneric] using hplain)]
    rw [htype]
    exact ⟨.simple fun t ht => hs.super_over hc ht, .empty, .simple⟩

/-- **A supertype mentions only parameters that are visible and do not vary.** -/
theorem selectSuperclass_typed {onlyInterfaces : Bool} (he : e.Sound) (hs : s.WellTyped) :
    (selectSuperclass e onlyInterfaces).Yields Session.Typed s fun r s' =>
      ∀ x ∈ r, x.ty.Over s'.vocabulary ∧ x.ty.NamesIn s.InvariantName := by
  unfold selectSuperclass
  refine .get ?_
  extract_lets candidates
  split
  · exact .pure (by simp)
  refine Yields.bind (Yields.of_onlyDraws Yields.coin) fun skip s₁ _ h₁ => ?_
  obtain ⟨⟨stream₁, rfl⟩, -⟩ := h₁
  split
  · exact .pure (by simp)
  refine Yields.bind (Yields.of_onlyDraws Yields.pick) fun picked s₂ _ h₂ => ?_
  obtain ⟨⟨stream₂, rfl⟩, hpicked⟩ := h₂
  split
  · exact .pure (by simp)
  rename_i chosen
  have hchosen : chosen ∈ s.classes := List.mem_of_mem_filter (List.mem_of_mem_filter (hpicked _ rfl))
  have hs₂ := (hs.atStream stream₁).atStream stream₂
  refine Yields.bind (Yields.of_onlyDraws (instantiateClass_typed hs₂ hchosen)) fun r s₃ _ h₃ => ?_
  obtain ⟨⟨stream₃, rfl⟩, hr⟩ := h₃
  split
  · exact .pure (by simp)
  rename_i t m
  -- An instance of the chosen class names no variable that its place would forbid.
  obtain ⟨ht, hm, hnames⟩ := hr _ rfl
  have hs₃ := hs₂.atStream stream₃
  split
  · refine .pass (.pure fun x hx => ?_)
    cases hx
    exact ⟨ht, hnames⟩
  · refine (Yields.map (P := fun _ _ => True) (genSuperArgs_typed he hs₃
      (fun _ => hs₃.field_over hchosen) hm)).bind
      fun args s₄ h₄ _ => .pure fun x hx => ?_
    cases hx
    exact ⟨(h₄ hs₃).1.over ht, hnames⟩

/-! ## Fields -/

theorem genField_typed {type : Option Ty} {classIsFinal : Bool} (hs : s.WellTyped)
    (htype : ∀ t ∈ type, t.Over s.vocabulary) :
    (genField type classIsFinal).Yields Session.Typed s fun f s' => f.ty.Over s'.vocabulary := by
  unfold genField
  refine Yields.bind (Yields.of_onlyDraws (Yields.onlyIf Yields.coin)) fun canOverride s₁ _ h₁ => ?_
  obtain ⟨⟨stream₁, rfl⟩, -⟩ := h₁
  refine Yields.bind (Yields.of_onlyDraws Yields.coin) fun isFinal s₂ _ h₂ => ?_
  obtain ⟨⟨stream₂, rfl⟩, -⟩ := h₂
  have hs₂ := (hs.atStream stream₁).atStream stream₂
  extract_lets named
  have hnamed : ∀ (s' : Session) (t : Ty), s'.WellTyped → t.Over s'.vocabulary →
      (named t).Yields Session.Typed s' fun f s'' => f.ty.Over s''.vocabulary := fun s' t hs' ht =>
    (word_typed hs').bind fun w s'' h' _ => .pure ((h' hs').1.over ht)
  split
  · exact .pass (hnamed _ _ hs₂ (htype _ rfl))
  · refine Yields.bind (Yields.of_onlyDraws (selectType_typed hs₂)) fun t s₃ _ h₃ => ?_
    obtain ⟨⟨stream₃, rfl⟩, ht, -⟩ := h₃
    exact hnamed _ t (hs₂.atStream stream₃) ht

theorem attachField_typed {f : FieldDecl} (hs : s.WellTyped) (hf : f.ty.Over s.vocabulary) :
    (attach ns (.field f)).Yields Session.Typed s fun _ _ => True := by
  refine attach_typed hs (by simp [Decl.kind]) fun t ht => ?_
  rw [List.mem_singleton.mp ht]
  exact hf

theorem overrideField_typed {classIsFinal : Bool} {f : FieldDecl} (hs : s.WellTyped)
    (hm : m.Over s.vocabulary) (hf : f.ty.Over s.vocabulary) :
    (overrideField ns m classIsFinal f).Yields Session.Typed s fun _ _ => True := by
  unfold overrideField
  refine Yields.bind (Yields.of_onlyDraws (Yields.onlyIf Yields.coin)) fun canOverride s₁ _ h₁ => ?_
  obtain ⟨⟨stream₁, rfl⟩, -⟩ := h₁
  exact attachField_typed (hs.atStream stream₁) (hm.subst hf)

/-- A sample is drawn from what there is. -/
theorem sample_yields {α : Type} {xs : List α} {most : Nat} :
    (sample xs most).Yields Session.OnlyDraws s fun ys _ => ∀ y ∈ ys, y ∈ xs := by
  unfold sample
  refine Yields.sizeBetween.bind fun k s₁ _ _ => .rand fun ys _ h y hy => ?_
  obtain ⟨positions, -, h⟩ := h.bind
  obtain ⟨i, -, hi⟩ := List.mem_filterMap.mp (Rand.canGive_pure.mp h ▸ hy)
  exact List.mem_of_getElem? hi

end Gen

/-- A receiver is of a class of the session, and what its parameters stand for is over it. -/
theorem Session.mem_of_receiver? (ht : t.Over s.vocabulary) (h : s.receiver? t = some (c, m)) :
    c ∈ s.classes ∧ m.Over s.vocabulary := by
  unfold Session.receiver? at h
  split at h
  · obtain ⟨d, hd, hx⟩ := Option.map_eq_some_iff.mp h
    cases hx
    exact ⟨(Session.mem_of_class? hd).2, .empty⟩
  · split at h
    · cases h
    · obtain ⟨d, hd, hx⟩ := Option.map_eq_some_iff.mp h
      cases hx
      exact ⟨(Session.mem_of_class? hd).2, .argMap ht⟩
  · cases h

namespace Gen

theorem requiredField_typed {classIsFinal : Bool} {required : Option Ty} {limit : Nat}
    (hs : s.WellTyped) (hrequired : ∀ t ∈ required, t.Over s.vocabulary) :
    (requiredField ns classIsFinal required limit).Yields Session.Typed s fun _ _ => True := by
  unfold requiredField
  split
  · exact .pure trivial
  · refine (genField_typed hs hrequired).bind fun f s₁ h₁ hf => ?_
    exact (attachField_typed (h₁ hs).2 hf).bind fun _ _ _ _ => .pure trivial

theorem inheritedFields_typed {classIsFinal : Bool} {superType : Option Ty} {limit : Nat}
    (hs : s.WellTyped) (hsuper : ∀ t ∈ superType, t.Over s.vocabulary) :
    (inheritedFields ns classIsFinal superType limit).Yields Session.Typed s fun _ _ => True := by
  unfold inheritedFields
  refine .get ?_
  split
  · exact .pure trivial
  · rename_i c m hreceiver
    obtain ⟨t, ht, hreceiver⟩ := Option.bind_eq_some_iff.mp hreceiver
    obtain ⟨hc, hm⟩ := Session.mem_of_receiver? (hsuper t ht) hreceiver
    refine Yields.bind (Yields.of_onlyDraws sample_yields) fun fields s₁ _ h₁ => ?_
    obtain ⟨⟨stream, rfl⟩, hfields⟩ := h₁
    refine (Yields.forM fun f hf s₂ h₂ => ?_).bind fun _ _ _ _ => .pure trivial
    obtain ⟨hgrows, hs₂⟩ := h₂ (hs.atStream stream)
    have hmem : f ∈ c.fields := List.mem_of_mem_filter (hfields f hf)
    exact overrideField_typed hs₂ (hm.mono fun _ => hgrows.over) (hgrows.over (hs.field_over hc hmem))

/-- The fields of a new class. -/
theorem genFields_typed {classIsFinal : Bool} {required superType : Option Ty} (hs : s.WellTyped)
    (hrequired : ∀ t ∈ required, t.Over s.vocabulary)
    (hsuper : ∀ t ∈ superType, t.Over s.vocabulary) :
    (genFields ns classIsFinal required superType).Yields Session.Typed s fun _ _ => True := by
  rw [genFields_eq]
  refine .get ((requiredField_typed hs hrequired).bind fun limit s₁ h₁ _ => ?_)
  obtain ⟨hgrows, hs₁⟩ := h₁ hs
  refine (inheritedFields_typed hs₁ fun t ht => hgrows.over (hsuper t ht)).bind
    fun overridden s₂ h₂ _ => Yields.sizeBetween.bind fun extra s₃ h₃ _ => ?_
  refine (Yields.times (G := fun _ _ => True) (fun s₄ h₄ => ?_) fun _ _ _ _ _ => trivial).bind
    fun _ _ _ _ => .pure trivial
  have hs₄ := (h₄ (h₃ (h₂ hs₁).2).2).2
  exact (genField_typed hs₄ (by simp)).bind fun f s₅ h₅ hf => attachField_typed (h₅ hs₄).2 hf

end Gen

/-! ## Inherited members -/

/-- **What a type leaves unimplemented is over the session**, and so is how it is seen. -/
theorem Session.WellTyped.abstractMembers_over {n : Nat} {x : FuncDecl × Subst} (hs : s.WellTyped)
    (ht : t.Over s.vocabulary) (hx : x ∈ abstractMembersWithin s.context n t) :
    (∀ u ∈ x.1.types, u.Over s.vocabulary) ∧ x.2.Over s.vocabulary := by
  induction n generalizing t x with
  | zero => cases hx
  | succ n ih =>
    cases hclass : s.context.globalClass? t.name with
    | none =>
      rw [abstractMembersWithin, hclass] at hx
      cases hx
    | some c =>
      have hc : c ∈ s.classes := (Context.mem_of_globalClass? hclass).2
      rw [abstractMembersWithin_succ hclass] at hx
      rcases mem_foldl_addOwn_cases hx with ⟨hx, -⟩ | ⟨hf, hm, -⟩
      · obtain ⟨sup, hsup, hx⟩ := mem_inheritedMembers hx
        exact ih ((Subst.Over.argMap ht).subst (hs.super_over hc (List.mem_map_of_mem hsup))) hx
      · exact ⟨hs.func_over hc hf, hm ▸ .argMap ht⟩

/-- The scope of a method can hold type parameters. -/
theorem Session.not_reserved_of_size {name : String} (hns : ns.size = 2) :
    ¬s.Reserved (ns.child name) := by
  unfold Namespace.size at hns
  rintro (h | ⟨v, -, h⟩) <;> have hlength := congrArg (·.segments.length) h <;>
    simp only [Namespace.child, Namespace.global, List.length_append, List.length_cons,
      List.length_nil] at hlength <;> omega

namespace Gen

/-- New letters for type parameters that clash are over the session. -/
theorem renameClashing_typed {view : Subst} {visible taken : List String} {ps : List TypeParam}
    (hm : m.Over s.vocabulary) (hps : ∀ p ∈ ps, (Ty.param p).Over s.vocabulary)
    (hview : view.Over s.vocabulary) :
    (renameClashing m visible ps taken view).Yields Session.OnlyDraws s fun view' _ =>
      view'.Over s.vocabulary := by
  induction ps generalizing s taken view with
  | nil => exact .pure hview
  | cons p ps ih =>
    rw [renameClashing]
    obtain ⟨hp, hps⟩ := List.forall_mem_cons.mp hps
    split
    · refine Yields.bind (Q := fun _ s' => s.OnlyDraws s') (.rand fun _ stream _ => ⟨stream, rfl⟩)
        fun letter s₁ _ h₁ => ?_
      obtain ⟨stream, rfl⟩ := h₁
      split
      · rename_i letter
        extract_lets renamed
        have hrenamed : (Ty.param renamed).Over s.vocabulary := by
          refine .param fun b hb => ?_
          obtain ⟨b', hb', rfl⟩ := Option.map_eq_some_iff.mp (Option.mem_def.mp hb)
          cases hp with
          | param hbound => exact hm.subst (hbound b' hb')
        exact ih (s := s.atStream stream) hm hps (hview.insert hrenamed)
      · exact ih (s := s.atStream stream) hm hps hview
    · exact ih hm hps hview

/-- **An inherited function is overridden as it is seen in the class.** -/
theorem overrideFunc_typed {classIsFinal : Bool} {f : FuncDecl} (he : e.Sound) (hs : s.WellTyped)
    (hns : ns.size = 2) (hf : ∀ t ∈ f.types, t.Over s.vocabulary) (hm : m.Over s.vocabulary) :
    (overrideFunc e ns m classIsFinal f).Yields Session.Typed s fun _ _ => True := by
  unfold overrideFunc
  refine .get ?_
  extract_lets visible taken
  have htypeParams : ∀ p ∈ f.typeParams, (Ty.param p).Over s.vocabulary := fun p hp =>
    hf _ (List.mem_append_right _ (List.mem_map_of_mem hp))
  refine Yields.bind (Yields.of_onlyDraws (renameClashing_typed hm htypeParams hm)) fun view s₁ _ h₁ => ?_
  obtain ⟨⟨stream, rfl⟩, hview⟩ := h₁
  refine (genFuncDecl_typed he (hs.atStream stream) ⟨⟨?_, ?_, ?_⟩, ?_, ?_⟩).mono fun _ _ _ _ => trivial
  · intro t ht
    cases ht
    exact hview.subst (hf _ List.mem_cons_self)
  · intro ps hps p hp
    cases hps
    obtain ⟨q, hq, rfl⟩ := List.mem_map.mp hp
    exact hview.subst (hf _ (List.mem_append_left _ (List.mem_cons_of_mem _ (List.mem_map_of_mem hq))))
  · intro ps hps p hp
    cases hps
    obtain ⟨q, hq, rfl⟩ := List.mem_map.mp hp
    exact TypeParam.over_subst (htypeParams q hq) hview
  · intro ns' hns'
    cases hns'
    rintro h
    simp [Namespace.size, h] at hns
  · rintro name -
    exact Session.not_reserved_of_size hns

/-- Members of a supertype are implemented or overridden. -/
theorem genInheritedFuncs_typed {kind : ClassKind} {classIsFinal : Bool} {limit : Nat} (he : e.Sound)
    (hs : s.WellTyped) (hns : ns.size = 2) (ht : t.Over s.vocabulary) :
    (genInheritedFuncs e ns kind classIsFinal t limit).Yields Session.Typed s fun _ _ => True := by
  unfold genInheritedFuncs
  extract_lets choose
  -- The overriding that is only optional comes last, whether or not the abstract members were
  -- implemented before.
  have hchoose : ∀ s' : Session, s'.WellTyped → t.Over s'.vocabulary →
      (choose ()).Yields Session.Typed s' fun _ _ => True := by
    intro s' hs' ht'
    show Yields _ (if _ then _ else _) _ _
    split
    · exact .pure trivial
    · refine .get ?_
      split
      · exact .pure trivial
      · rename_i c m hreceiver
        obtain ⟨hc, hm⟩ := Session.mem_of_receiver? ht' hreceiver
        refine .get (Yields.bind (Yields.of_onlyDraws sample_yields) fun funcs s₁ _ h₁ => ?_)
        obtain ⟨⟨stream, rfl⟩, hfuncs⟩ := h₁
        have hs₁ := hs'.atStream stream
        refine (Yields.forM fun f hf s₂ h₂ => ?_).bind fun _ _ _ _ => .pure trivial
        obtain ⟨hgrows, hs₂⟩ := h₂ hs₁
        have hmem : f ∈ c.funcs := List.mem_of_mem_filter (List.mem_of_mem_filter (hfuncs f hf))
        refine (overrideFunc_typed he hs₂ hns (fun u hu => hgrows.over (hs'.func_over hc hmem u hu))
          (hm.mono fun _ => hgrows.over)).bind fun _ _ _ _ => .pure trivial
  split
  · refine .get ((Yields.forM fun x hx s₂ h₂ => ?_).bind fun _ s₂ h₂ _ => ?_)
    · obtain ⟨hgrows, hs₂⟩ := h₂ hs
      obtain ⟨hf, hm⟩ := hs.abstractMembers_over ht hx
      refine (overrideFunc_typed he hs₂ hns (fun u hu => hgrows.over (hf u hu))
        (hm.mono fun _ => hgrows.over)).bind fun _ _ _ _ => .pure trivial
    · exact hchoose s₂ (h₂ hs).2 ((h₂ hs).1.over ht)
  · exact hchoose s hs ht

end Gen

/-- Parameters that are made for given types have these types. -/
theorem ParamDecl.map_ty_of_forall₂ {types : List Ty} {params : List ParamDecl}
    (h : List.Forall₂ (fun t (p : ParamDecl) => p.ty = t) types params) :
    params.map (·.ty) = types := by
  induction h with
  | nil => rfl
  | cons h _ ih => rw [List.map_cons, h, ih]

/-- All types that are asked of a class are over the vocabulary. -/
structure ClassSpec.Over (V : Vocabulary) (spec : ClassSpec) : Prop where
  fieldType : ∀ t ∈ spec.fieldType, t.Over V
  returnType : ∀ t ∈ spec.returnType, t.Over V
  typeParams : ∀ ps ∈ spec.typeParams, ∀ p ∈ ps, (Ty.param p).Over V
  signature : ∀ t ∈ spec.signature, t.Over V

theorem ClassSpec.Over.mono {V V' : Vocabulary} {spec : ClassSpec} (h : spec.Over V)
    (hV : ∀ t : Ty, t.Over V → t.Over V') : spec.Over V' where
  fieldType t ht := hV t (h.fieldType t ht)
  returnType t ht := hV t (h.returnType t ht)
  typeParams ps hps p hp := hV _ (h.typeParams ps hps p hp)
  signature t ht := hV t (h.signature t ht)

namespace Gen

variable {member : FuncSpec}

theorem requiredMethod_typed {ret : Option Ty} {limit : Nat} (he : e.Sound) (hs : s.WellTyped)
    (hmember : member.Stated s) (hret : ∀ t ∈ ret, t.Over s.vocabulary) :
    (requiredMethod e member ret limit).Yields Session.Typed s fun _ _ => True := by
  unfold requiredMethod
  split
  · exact .pure trivial
  · have hspec : FuncSpec.Stated s { member with ret := some _, notVoid := true } :=
      ⟨⟨hret, hmember.types_over.params, hmember.types_over.typeParams⟩, hmember.rooted, hmember.name⟩
    exact (genFuncDecl_typed he hs hspec).bind fun _ _ _ _ => .pure trivial

theorem signatureMethod_typed {signature : Option Ty} {limit : Nat} (he : e.Sound)
    (hs : s.WellTyped) (hmember : member.Stated s)
    (hsignature : ∀ t ∈ signature, t.Over s.vocabulary) :
    (signatureMethod e member signature limit).Yields Session.Typed s fun _ _ => True := by
  unfold signatureMethod
  split
  · exact .pure trivial
  rename_i t
  split
  · exact .pure trivial
  rename_i types ret hparts
  obtain ⟨htypes, hret⟩ := (hsignature t rfl).functionSignature? hparts
  refine (Yields.mapM (G := fun t (p : ParamDecl) _ => p.ty = t) (fun t _ s₁ h₁ => ?_)
    fun _ _ _ _ _ h => h).bind fun params s₂ h₂ hparams => ?_
  · exact (word_typed (h₁ hs).2).bind fun _ _ _ _ => .pure rfl
  obtain ⟨hgrows, hs₂⟩ := h₂ hs
  have hmember₂ := hmember.of_grows hgrows
  have hspec : FuncSpec.Stated s₂ { member with ret := some ret, params := some params } := by
    refine ⟨⟨fun u hu => ?_, fun ps hps p hp => ?_, hmember₂.types_over.typeParams⟩, hmember₂.rooted,
      hmember₂.name⟩
    · cases hu
      exact hgrows.over hret
    · cases hps
      exact hgrows.over (htypes _ (ParamDecl.map_ty_of_forall₂ hparams ▸ List.mem_map_of_mem hp))
  exact (genFuncDecl_typed he hs₂ hspec).bind fun _ _ _ _ => .pure trivial

theorem inheritedMethods_typed {kind : ClassKind} {classIsFinal : Bool} {superType : Option Ty}
    {limit : Nat} (he : e.Sound) (hs : s.WellTyped) (hns : ns.size = 2)
    (hsuper : ∀ t ∈ superType, t.Over s.vocabulary) :
    (inheritedMethods e ns kind classIsFinal superType limit).Yields Session.Typed s
      fun _ _ => True := by
  unfold inheritedMethods
  split
  · exact .pure trivial
  · exact genInheritedFuncs_typed he hs hns (hsuper _ rfl)

/-- The methods of a new class. -/
theorem genMethods_typed {kind : ClassKind} {classIsFinal : Bool} {spec : ClassSpec}
    {superType : Option Ty} (he : e.Sound) (hs : s.WellTyped) (hns : ns.size = 2)
    (hspec : spec.Over s.vocabulary) (hsuper : ∀ t ∈ superType, t.Over s.vocabulary) :
    (genMethods e ns kind classIsFinal spec superType).Yields Session.Typed s fun _ _ => True := by
  rw [genMethods_eq]
  extract_lets member
  have hmember : ∀ s' : Session, member.Stated s' := by
    refine fun s' => ⟨⟨nofun, nofun, nofun⟩, fun ns' hns' h => ?_, nofun⟩
    cases hns'
    simp [Namespace.size, h] at hns
  refine .get ((requiredMethod_typed he hs (hmember s) hspec.returnType).bind fun limit s₁ h₁ _ => ?_)
  obtain ⟨hgrows₁, hs₁⟩ := h₁ hs
  refine (signatureMethod_typed he hs₁ (hmember s₁) fun t ht => hgrows₁.over (hspec.signature t ht)).bind
    fun limit s₂ h₂ _ => ?_
  obtain ⟨hgrows₂, hs₂⟩ := h₂ hs₁
  refine (inheritedMethods_typed he hs₂ hns fun t ht => hgrows₂.over (hgrows₁.over (hsuper t ht))).bind
    fun overridden s₃ h₃ _ => Yields.sizeBetween.bind fun extra s₄ h₄ _ => ?_
  refine (Yields.times (G := fun _ _ => True) (fun s₅ h₅ => ?_) fun _ _ _ _ _ => trivial).bind
    fun _ _ _ _ => .pure trivial
  have hs₅ := (h₅ (h₄ (h₃ hs₂).2).2).2
  exact (genFuncDecl_typed he hs₅ (hmember s₅)).mono fun _ _ _ _ => trivial

end Gen

/-! ## Headers -/

/-- The name is free for a new class: its scope can hold type parameters and holds none. -/
structure Session.FreeClassName (s : Session) (name : String) : Prop where
  not_reserved : ¬s.Reserved (Namespace.global.child name)
  types : (s.context.scope (Namespace.global.child name)).types = []
  name_ne : ∀ d, s.language.HasClass d → d.name ≠ name

/-- A class can be declared as it is asked for. -/
structure ClassSpec.Stated (s : Session) (spec : ClassSpec) : Prop where
  types_over : spec.Over s.vocabulary
  telescoped : ∀ ps ∈ spec.typeParams, Telescoped [] ps
  name : ∀ n ∈ spec.name, s.FreeClassName n

/-- Only its own parameters are visible in the scope of a class. -/
theorem Session.WellTyped.mem_of_seesParam {name : String} {p : TypeParam} (hs : s.WellTyped)
    (hframe : s.frame.ns = Namespace.global.child name) (hp : s.SeesParam p) :
    p ∈ (s.context.scope (Namespace.global.child name)).types := by
  obtain ⟨m, hm, hp⟩ := hp
  rw [hframe] at hm
  have hlineage : (Namespace.global.child name).lineage = [.global, Namespace.global.child name] := rfl
  rw [hlineage] at hm
  rcases List.mem_cons.mp hm with rfl | hm
  · rw [hs.reserved .global (.inl rfl)] at hp
    cases hp
  · exact List.mem_singleton.mp hm ▸ hp

/-- **What a class inherits varies with its parameters the way they are declared.** -/
theorem Session.WellTyped.variesIn {name : String} {pos : Variance} (hs : s.WellTyped)
    (hframe : s.frame.ns = Namespace.global.child name) (ht : t.NamesIn s.InvariantName) :
    t.VariesIn (s.context.scope (Namespace.global.child name)).types pos := by
  refine (ht.mono fun n ⟨p, hp, hinvariant, hn⟩ => ?_).variesIn
  have hmem := hs.mem_of_seesParam hframe hp
  refine ⟨⟨p, hmem, hn⟩, fun q hq hqn => ?_⟩
  obtain rfl : q = p := List.inj_on_of_nodup_map (hs.distinct_params _) hq hmem (hqn.trans hn.symm)
  exact hinvariant

namespace Gen

/-- A name that is drawn for a class is free. -/
theorem className_free (hs : s.WellTyped) :
    className.Yields Session.Typed s fun n s' => s'.FreeClassName n := by
  refine (className_typed hs).mono fun n s' h' ⟨w, hn, hw, hgone, hcontext⟩ => ?_
  obtain ⟨hgrows, hs'⟩ := h' hs
  have hlower := hw.startsLower hs.pool
  subst hn
  refine ⟨?_, ?_, fun d hd => ?_⟩
  · rintro (h | ⟨v, hv, h⟩)
    · have hlength := congrArg (·.segments.length) h
      simp [Namespace.child, Namespace.global] at hlength
    · have hlast := congrArg (·.segments.getLast?) h
      simp only [Namespace.child, List.getLast?_append, List.getLast?_singleton, Option.some_or,
        Option.some.injEq] at hlast
      have := capitalize_injective hlower (hv.startsLower hs'.pool) hlast
      exact hgone (this ▸ hv)
  · rw [hcontext]
    exact hs.reserved _ (.inr ⟨w, hw, rfl⟩)
  · rw [hgrows.language] at hd
    exact hd.name_ne_capitalize hs.pool hw

theorem specClassName_typed {spec : ClassSpec} (hs : s.WellTyped) (hspec : spec.Stated s) :
    (specClassName spec).Yields Session.Typed s fun n s' => s'.FreeClassName n := by
  unfold specClassName
  split
  · exact .pure (hspec.name _ ‹_›)
  · exact className_free hs

/-- The type parameters of a new class are bound in its scope, and nothing else is. -/
theorem classTypeParams_typed {spec : ClassSpec} {name : String} (hs : s.WellTyped)
    (hframe : s.frame.ns = Namespace.global.child name) (hname : s.FreeClassName name)
    (hover : spec.Over s.vocabulary) (htelescoped : ∀ ps ∈ spec.typeParams, Telescoped [] ps) :
    (classTypeParams (Namespace.global.child name) spec).Yields Session.Typed s fun ps s' =>
      Telescoped [] ps ∧ (∀ p ∈ ps, (Ty.param p).Over s'.vocabulary) ∧
        (s'.context.scope (Namespace.global.child name)).types = ps ∧
        ∀ qs ∈ spec.typeParams, ps = qs := by
  unfold classTypeParams
  split
  · rename_i ps hps
    have hover' := hover.typeParams ps hps
    refine (addTypes_typed hs hname.not_reserved hover').bind fun _ s₁ h₁ htypes => ?_
    refine .pure ⟨htelescoped ps hps, fun p hp => (h₁ hs).1.over (hover' p hp), ?_, fun qs hqs => ?_⟩
    · rw [htypes, hname.types, if_pos rfl, List.nil_append]
    · rw [hps] at hqs
      exact Option.some.inj hqs
  · rename_i hnone
    have hbefore : ∀ p, s.SeesParam p → p.name ∈ ([] : List String) := fun p hp => by
      have := hs.mem_of_seesParam hframe hp
      rw [hname.types] at this
      cases this
    refine (genTypeParams_typed hs (hframe ▸ hname.not_reserved) hbefore).mono
      fun ps s₁ _ ⟨htelescoped, hover, htypes⟩ => ⟨htelescoped, hover, ?_, ?_⟩
    · rw [htypes, hname.types, if_pos hframe.symm, List.nil_append]
    · rw [hnone]
      exact nofun

/-- **A declared class enters the table**, with the type parameters that its scope binds. -/
theorem declareClass_typed {spec : ClassSpec} {name : String} {kind : ClassKind} {isFinal : Bool}
    {typeParams : List TypeParam} (he : e.Sound) (hs : s.WellTyped)
    (hframe : s.frame.ns = Namespace.global.child name)
    (hname : ∀ d, s.language.HasClass d → d.name ≠ name) (htelescoped : Telescoped [] typeParams)
    (hover : ∀ p ∈ typeParams, (Ty.param p).Over s.vocabulary)
    (htypes : (s.context.scope (Namespace.global.child name)).types = typeParams)
    (hspec : spec.Over s.vocabulary) :
    (declareClass e spec (Namespace.global.child name) name kind isFinal typeParams).Yields
      Session.Typed s fun _ s' => ∃ c ∈ s'.classes, c.name = name ∧ c.typeParams = typeParams := by
  unfold declareClass
  refine (selectSuperclass_typed he hs).bind fun superclass s₁ h₁ hsuper => ?_
  obtain ⟨hgrows₁, hs₁⟩ := h₁ hs
  extract_lets plain superType methods
  have hvaries : ∀ x ∈ superclass, x.ty.VariesIn typeParams .covariant := fun x hx =>
    htypes ▸ hs.variesIn hframe (hsuper x hx).2
  refine (addClass_typed (fun t ht => ?_) ⟨?_, htelescoped, fun t ht => ?_⟩).bind fun _ s₂ h₂ hmem => ?_
  · simp only [ClassDecl.types, plain, ClassDecl.plain, ClassDecl.supertypes, ClassDecl.fieldTypes,
      List.map_nil, List.flatMap_nil, List.append_nil, List.mem_append, List.mem_map] at ht
    rcases ht with ⟨p, hp, rfl⟩ | ⟨x, hx, rfl⟩
    · exact hgrows₁.over (hover p hp)
    · exact (hsuper x (Option.mem_toList.mp hx)).1
  · rw [hgrows₁.language]
    exact hname
  · obtain ⟨x, hx, rfl⟩ := List.mem_map.mp ht
    exact hvaries x (Option.mem_toList.mp hx)
  obtain ⟨hgrows₂, hs₂⟩ := h₂ hs₁
  have hspec₂ : spec.Over s₂.vocabulary := hspec.mono fun _ ht => hgrows₂.over (hgrows₁.over ht)
  have hsuper₂ : ∀ t ∈ superType, t.Over s₂.vocabulary := by
    intro t ht
    obtain ⟨x, hx, rfl⟩ := Option.map_eq_some_iff.mp (Option.mem_def.mp ht)
    exact hgrows₂.over (hsuper x hx).1
  -- Members may be added to the class from here on; its header stays.
  have hdeclared : ∀ s', s₂.Grows s' →
      ∃ c ∈ s'.classes, c.name = name ∧ c.typeParams = typeParams := by
    intro s' hgrows
    obtain ⟨c, hc, hheader⟩ := hgrows.headers _ hmem
    exact ⟨c, hc, congrArg ClassDecl.name hheader, congrArg ClassDecl.typeParams hheader⟩
  have hmethods : ∀ s', s₂.Typed s' → (methods ()).Yields Session.Typed s' fun _ s'' =>
      ∃ c ∈ s''.classes, c.name = name ∧ c.typeParams = typeParams := by
    intro s' h'
    obtain ⟨hgrows, hs'⟩ := h' hs₂
    refine (genMethods_typed he hs' rfl (hspec₂.mono fun _ => hgrows.over) fun t ht =>
      hgrows.over (hsuper₂ t ht)).mono fun _ s'' h'' _ => ?_
    exact hdeclared s'' (hgrows.trans (h'' hs').1)
  split
  · exact (genFields_typed hs₂ hspec₂.fieldType hsuper₂).bind fun _ s₃ h₃ _ => hmethods s₃ h₃
  · exact hmethods s₂ (refl_of _ _)

theorem genClassInside_typed {spec : ClassSpec} {name : String} (he : e.Sound) (hs : s.WellTyped)
    (hframe : s.frame.ns = Namespace.global.child name) (hname : s.FreeClassName name)
    (hover : spec.Over s.vocabulary) (htelescoped : ∀ ps ∈ spec.typeParams, Telescoped [] ps) :
    (genClassInside e spec (Namespace.global.child name) name).Yields Session.Typed s fun c s' =>
      c ∈ s'.classes ∧ c.name = name ∧ ∀ ps ∈ spec.typeParams, c.typeParams = ps := by
  unfold genClassInside
  refine Yields.bind (Yields.of_onlyDraws selectClassKind_yields) fun kind s₁ _ h₁ => ?_
  obtain ⟨⟨stream₁, rfl⟩, -⟩ := h₁
  refine Yields.bind (Yields.of_onlyDraws (Yields.onlyIf Yields.coin)) fun isFinal s₂ _ h₂ => ?_
  obtain ⟨⟨stream₂, rfl⟩, -⟩ := h₂
  have hs₂ := (hs.atStream stream₁).atStream stream₂
  refine (classTypeParams_typed hs₂ hframe ⟨hname.not_reserved, hname.types, hname.name_ne⟩ hover
    htelescoped).bind fun typeParams s₃ h₃ ⟨htelescoped, hps, htypes, hgiven⟩ => ?_
  obtain ⟨hgrows₃, hs₃⟩ := h₃ hs₂
  refine (whileUnfinished_typed (Q := fun _ s' =>
    ∃ c ∈ s'.classes, c.name = name ∧ c.typeParams = typeParams) hs₃ ?_).bind
      fun _ s₄ h₄ hdeclared => .get ?_
  · refine declareClass_typed he hs₃.withUnfinished (hgrows₃.frame ▸ hframe) ?_ htelescoped hps
      htypes (hover.mono fun _ => hgrows₃.over)
    show ∀ d, s₃.language.HasClass d → d.name ≠ name
    rw [hgrows₃.language]
    exact hname.name_ne
  · obtain ⟨c, hc, hcname, hcparams⟩ := hdeclared
    obtain ⟨-, hs₄⟩ := h₄ hs₃
    split
    · rename_i d hd
      obtain ⟨hdname, hdmem⟩ := Session.mem_of_class? hd
      obtain rfl := hs₄.eq_of_name hdmem hc (hdname.trans hcname.symm)
      exact .pure ⟨hc, hcname, fun ps hps => hcparams.trans (hgiven ps hps)⟩
    · exact .throw

/-- **A class is declared with the type parameters that are asked for.** -/
theorem genClassDecl_typed {spec : ClassSpec} (he : e.Sound) (hs : s.WellTyped)
    (hspec : spec.Stated s) :
    (genClassDecl e spec).Yields Session.Typed s fun c s' =>
      c ∈ s'.classes ∧ ∀ ps ∈ spec.typeParams, c.typeParams = ps := by
  rw [genClassDecl_eq]
  refine (specClassName_typed hs hspec).bind fun name s₁ h₁ hname => ?_
  obtain ⟨hgrows, hs₁⟩ := h₁ hs
  extract_lets ns
  have hover : spec.Over s₁.vocabulary := hspec.types_over.mono fun _ => hgrows.over
  refine inFrame_typed hs₁ (by simp [Frame.enterClass, Frame.enter, ns, Namespace.child])
    fun s₂ heq hs₂ hv => ?_
  subst heq
  refine (genClassInside_typed he hs₂ rfl ⟨hname.not_reserved, hname.types, hname.name_ne⟩ hover
    hspec.telescoped).mono fun c s₃ _ hdeclared => ⟨hdeclared.1, hdeclared.2.2⟩

end Gen

/-! ## Classes for a type -/

/-- Letters that stand for the first variables of a list: as many as there are variables, unless the
letters run out. -/
structure Lettered (vars : List TypeParam) (taken : List String) (letters : List TypeParam) : Prop where
  length_le : letters.length ≤ vars.length
  complete : letters.length = vars.length ∨ capitalLetters.length ≤ taken.length + letters.length
  nodup : (taken ++ letters.map (·.name)).Nodup
  closed : ∀ p ∈ letters, ∀ b ∈ p.bound, b.hasVariables = false
  bound : ∀ p ∈ letters, ∀ b ∈ p.bound, ∃ v ∈ vars, v.effectiveBound = some b

/-- What the variables stand for. -/
def letterMap (vars letters : List TypeParam) : Subst := .ofList (vars.zip (letters.map .param))

namespace Lettered

variable {V : Vocabulary} {vars letters : List TypeParam} {taken : List String}

theorem params_over (h : Lettered vars taken letters) (hvars : ∀ v ∈ vars, (Ty.param v).Over V) :
    ∀ p ∈ letters, (Ty.param p).Over V := fun p hp => .param fun b hb => by
  obtain ⟨v, hv, hbound⟩ := h.bound p hp b hb
  exact TypeParam.over_effectiveBound (hvars v hv) hbound

theorem telescoped (h : Lettered vars [] letters) (hvars : ∀ v ∈ vars, (Ty.param v).Over V) :
    Telescoped [] letters := by
  have hbounds : ∀ (before : List String) (ps : List TypeParam), (∀ p ∈ ps, (Ty.param p).Over V) →
      (∀ p ∈ ps, ∀ b ∈ p.bound, b.hasVariables = false) → Telescoped before ps := by
    intro before ps
    induction ps generalizing before with
    | nil => exact fun _ _ => trivial
    | cons p ps ih =>
      intro hover hclosed
      obtain ⟨hp, hover⟩ := List.forall_mem_cons.mp hover
      obtain ⟨hpclosed, hclosed⟩ := List.forall_mem_cons.mp hclosed
      refine ⟨fun b hb => ?_, ih _ hover hclosed⟩
      cases hp with
      | param hbound =>
        refine (hbound b hb).namesIn fun q hq => ?_
        exact absurd hq (Ty.hasVariables_eq_false.mp (hpclosed b hb) q)
  exact hbounds [] letters (h.params_over hvars) h.closed

theorem over_letterMap (h : Lettered vars [] letters) (hvars : ∀ v ∈ vars, (Ty.param v).Over V) :
    (letterMap vars letters).Over V := by
  refine .ofList fun x hx => ?_
  obtain ⟨p, hp, h'⟩ := List.mem_map.mp (List.of_mem_zip hx).2
  exact h' ▸ h.params_over hvars p hp

/-- There is a letter for each variable, if there are enough letters. -/
theorem length_eq (h : Lettered t.typeVars [] letters) (hname : t.Nameable) :
    letters.length = t.typeVars.length := by
  have hle := h.length_le
  have hcomplete := h.complete
  have hfew := hname.1
  simp only [List.length_nil] at hcomplete
  omega

/-- A variable stands for its letter. -/
theorem lookup_letterMap (h : Lettered t.typeVars [] letters) (hname : t.Nameable) (hp : t.Occurs p) :
    ∃ q ∈ letters, (letterMap t.typeVars letters).lookup p.name = some (.param q) ∧
      (Subst.ofArgs letters (t.typeVars.map .param)).lookup q.name = some (.param p) := by
  have hlength := h.length_eq hname
  obtain ⟨i, hi, rfl⟩ := List.mem_iff_getElem.mp (Ty.mem_typeVars.mpr hp)
  refine ⟨letters[i], List.getElem_mem _, ?_, ?_⟩
  · refine Subst.lookup_ofList_of_mem (x := (t.typeVars[i], .param letters[i])) ?_ ?_
    · have hmap : (t.typeVars.zip (letters.map Ty.param)).map (·.1.name) =
          t.typeVars.map (·.name) := by
        show List.map (TypeParam.name ∘ Prod.fst) _ = _
        rw [← List.map_map, List.map_fst_zip (by simp [hlength])]
      rw [hmap]
      exact hname.2
    · exact List.mem_iff_getElem.mpr ⟨i, by simp [hlength, hi], by simp⟩
  · refine Subst.lookup_ofList_of_mem (x := (letters[i], .param t.typeVars[i])) ?_ ?_
    · have hmap : (letters.zip (t.typeVars.map Ty.param)).map (·.1.name) = letters.map (·.name) := by
        show List.map (TypeParam.name ∘ Prod.fst) _ = _
        rw [← List.map_map, List.map_fst_zip (by simp [hlength])]
      rw [hmap]
      exact h.nodup
    · exact List.mem_iff_getElem.mpr ⟨i, by simp [hlength, hi], by simp⟩

/-- **A type whose variables can be told apart is named back.** -/
theorem subst_letterMap (h : Lettered t.typeVars [] letters) (hname : t.Nameable) :
    (t.subst (letterMap t.typeVars letters)).subst (Subst.ofArgs letters (t.typeVars.map .param)) = t :=
  Ty.subst_renamed fun _ hp => (h.lookup_letterMap hname hp).imp fun _ hq => hq.2

/-- **What is named by letters in a class is seen through the receiver** with the variables. -/
theorem subst_argMap (h : Lettered t.typeVars [] letters) (hname : t.Nameable) (hc : c.typeParams = letters) :
    (t.subst (letterMap t.typeVars letters)).subst
      (c.receiverFor (t.typeVars.take letters.length)).argMap = t := by
  rw [h.length_eq hname, List.take_length, ClassDecl.argMap_receiverFor]
  split
  · rw [hc]
    exact h.subst_letterMap hname
  · -- A class without parameters is one for a type without variables.
    have hempty : letters = [] := by
      rw [← hc]
      simpa [ClassDecl.isGeneric] using ‹¬c.isGeneric = true›
    have hclosed : t.typeVars = [] := List.length_eq_zero_iff.mp (by rw [← h.length_eq hname, hempty]; rfl)
    rw [Ty.subst_empty, hclosed]
    exact Ty.subst_empty t

/-- Nothing but letters is mentioned where every variable has got one. -/
theorem mem_of_occurs (h : Lettered t.typeVars [] letters) (hname : t.Nameable)
    (hp : (t.subst (letterMap t.typeVars letters)).Occurs p) : p ∈ letters := by
  have hvalues : (letterMap t.typeVars letters).All fun u => ∀ q, u.Occurs q → q ∈ letters := by
    refine .ofList fun x hx q hq => ?_
    obtain ⟨r, hr, hx⟩ := List.mem_map.mp (List.of_mem_zip hx).2
    rw [← hx] at hq
    rcases Ty.occurs_param.mp hq with rfl | ⟨b, hb, hq⟩
    · exact hr
    · exact absurd hq (Ty.hasVariables_eq_false.mp (h.closed r hr b hb) q)
  rcases Ty.occurs_of_occurs_subst hp with ⟨q, hq, hqp, hnone⟩ | ⟨x, hx, hp⟩
  · obtain ⟨_, -, hlookup, -⟩ := h.lookup_letterMap hname hq
    rw [hqp, hnone] at hlookup
    cases hlookup
  · exact hvalues x hx p hp

end Lettered

namespace Gen

/-- The variables of a type are given letters. -/
theorem abstractVariables_yields {vars params : List TypeParam} {taken : List String} (htaken : taken.Nodup) :
    (abstractVariables vars taken m params).Yields Session.OnlyDraws s fun r _ =>
      ∃ letters, Lettered vars taken letters ∧ r.2 = params ++ letters ∧
        r.1 = (vars.zip (letters.map .param)).foldl (fun m x => m.insert x.1 x.2) m := by
  induction vars generalizing s taken m params with
  | nil =>
    refine .pure ⟨[], ⟨Nat.le_refl _, .inl rfl, by simpa using htaken, by simp, by simp⟩, ?_, rfl⟩
    exact (List.append_nil _).symm
  | cons v vs ih =>
    rw [abstractVariables]
    -- No letter is left exactly when all of them are taken.
    refine Yields.bind (Q := fun o s' => s.OnlyDraws s' ∧ (∀ letter ∈ o, letter ∉ taken) ∧
      (o = none → capitalLetters.length ≤ taken.length))
      (.rand fun o stream h => ?_) fun o s₁ _ h₁ => ?_
    · obtain ⟨hfresh, hfull⟩ := canGive_freshLetter h
      exact ⟨⟨stream, rfl⟩, fun letter hletter => (hfresh letter hletter).2,
        fun ho => (capitalLetters_nodup.subperm (hfull ho)).length_le⟩
    obtain ⟨-, hfresh, hfull⟩ := h₁
    split
    · refine .pure ⟨[], ⟨Nat.zero_le _, .inr (by simpa using hfull rfl), by simpa using htaken,
        by simp, by simp⟩, ?_, by simp⟩
      exact (List.append_nil _).symm
    -- The letter is new, and its bound is kept only where it is closed.
    · rename_i letter
      extract_lets bound p
      have hbound : ∀ b ∈ p.bound, v.effectiveBound = some b ∧ b.hasVariables = false := fun b hb => by
        simpa using Option.filter_eq_some_iff.mp hb
      have htaken' : (taken ++ [letter]).Nodup := by
        refine List.Nodup.append htaken (List.nodup_singleton _) ?_
        simpa using hfresh letter rfl
      refine (@ih s₁ (m.insert v (.param p)) (params ++ [p]) (taken ++ [letter]) htaken').mono
        fun r _ _ ⟨letters, h, hr₂, hr₁⟩ => ⟨p :: letters, ⟨?_, ?_, ?_, ?_, ?_⟩, ?_, ?_⟩
      · simpa using h.length_le
      · have hcomplete := h.complete
        simp only [List.length_append, List.length_cons, List.length_nil] at hcomplete ⊢
        omega
      · simpa using h.nodup
      · exact List.forall_mem_cons.mpr ⟨fun b hb => (hbound b hb).2, h.closed⟩
      · refine List.forall_mem_cons.mpr ⟨fun b hb => ⟨v, List.mem_cons_self, (hbound b hb).1⟩, fun q hq b hb => ?_⟩
        exact (h.bound q hq b hb).imp fun w hw => ⟨List.mem_cons_of_mem _ hw.1, hw.2⟩
      · rw [hr₂, List.append_assoc]
        rfl
      · rw [hr₁]
        rfl

/-- A class that is declared for a type has a member that is seen with that type through the receiver,
if the variables of the type can be told apart. -/
theorem declareMatching_typed {asField : Bool} (he : e.Sound) (hs : s.WellTyped) (ht : t.Over s.vocabulary) :
    (declareMatching e t asField).Yields Session.Typed s fun r s' =>
      r.1.Over s'.vocabulary ∧ r.2.Over s'.vocabulary ∧ (t.Nameable → r.2.subst r.1.argMap = t) := by
  unfold declareMatching
  have hvars : ∀ v ∈ t.typeVars, (Ty.param v).Over s.vocabulary := fun v hv => (Ty.mem_typeVars.mp hv).over ht
  refine Yields.bind (Yields.of_onlyDraws (abstractVariables_yields List.nodup_nil)) fun r s₁ _ h₁ => ?_
  obtain ⟨⟨stream, rfl⟩, letters, hletters, hparams, hmap⟩ := h₁
  obtain ⟨m, params⟩ := r
  obtain rfl : params = letters := hparams
  obtain rfl : m = letterMap t.typeVars params := hmap
  have hmember : (t.subst (letterMap t.typeVars params)).Over s.vocabulary := (hletters.over_letterMap hvars).subst ht
  have hspec : (ClassSpec.matching params (t.subst (letterMap t.typeVars params)) asField).Stated (s.atStream stream) := by
    have htypeParams : ∀ ps ∈ some params, ∀ p ∈ ps, (Ty.param p).Over s.vocabulary := by
      intro ps hps
      exact Option.some.inj hps ▸ hletters.params_over hvars
    have htelescoped : ∀ ps ∈ some params, Telescoped [] ps := by
      intro ps hps
      exact Option.some.inj hps ▸ hletters.telescoped hvars
    have hasked : ∀ u ∈ some (t.subst (letterMap t.typeVars params)), u.Over s.vocabulary := by
      intro u hu
      exact Option.some.inj hu ▸ hmember
    cases asField with
    | true => exact ⟨⟨hasked, nofun, htypeParams, nofun⟩, htelescoped, nofun⟩
    | false => exact ⟨⟨nofun, hasked, htypeParams, nofun⟩, htelescoped, nofun⟩
  refine (genClassDecl_typed he (hs.atStream stream) hspec).bind fun c s₂ h₂ ⟨hc, hctor⟩ => ?_
  obtain ⟨hgrows, hs₂⟩ := h₂ (hs.atStream stream)
  have hcparams : c.typeParams = params := hctor params (by cases asField <;> rfl)
  refine .pure ⟨?_, hgrows.over hmember, fun hname => hletters.subst_argMap hname hcparams⟩
  unfold ClassDecl.receiverFor
  split
  · refine .applied (.inr ⟨c, hc, ‹_›, rfl⟩) ?_ fun a ha => ?_
    · have hle := hletters.length_le
      simp only [List.length_map, List.length_take, ClassDecl.ctor, hcparams]
      omega
    · obtain ⟨v, hv, rfl⟩ := List.mem_map.mp ha
      exact hgrows.over (hvars v (List.mem_of_mem_take hv))
  · have hempty : c.typeParams.isEmpty := by simpa [ClassDecl.isGeneric] using ‹¬c.isGeneric = true›
    rw [ClassDecl.type, if_pos hempty]
    exact .simple fun u hu => hs₂.super_over hc hu

/-- **A member of a class that is declared for a type is seen with that type** through the receiver,
if the variables of the type can be told apart; if not, it unifies with the type. -/
theorem genMatchingClass_typed {asField : Bool} (he : e.Sound) (hs : s.WellTyped)
    (ht : t.Over s.vocabulary) :
    (genMatchingClass e t asField).Yields Session.Typed s fun r s' =>
      r.1.Over s'.vocabulary ∧ r.2.Over s'.vocabulary ∧
        (t.unify? (r.2.subst r.1.argMap)).isSome ∧ (t.Nameable → r.2.subst r.1.argMap = t) := by
  rw [genMatchingClass_eq]
  refine (declareMatching_typed he hs ht).bind fun r s₁ _ ⟨hreceiver, hmember, hname⟩ => ?_
  unfold requireSeen
  split
  · exact .pure ⟨hreceiver, hmember, Option.isSome_of_eq_some ‹_›, hname⟩
  · exact .throw

end Gen

end ProgramGen

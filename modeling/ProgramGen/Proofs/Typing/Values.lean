import ProgramGen.Proofs.Typing.Classes
import ProgramGen.Synthesis.Value

/-!
# Typed values

Literals, operators, closures and new values have just the type that is asked for, or one below it:
an abstract type gets a value of a concrete subtype, or of a class that is declared for it and
inherits it.
-/

namespace ProgramGen

variable {s s' : Session} {t u : Ty} {e : Engine} {m : Subst} {c : ClassDecl} {l : Language}
variable {a : Expr}

/-- An expression of just the type that is asked for. -/
theorem Session.Grows.fits (h : s.Grows s') (ht : t.Over s.vocabulary) (ha : a.ty? = some t) :
    a.Fits s'.vocabulary t :=
  .of_ty? (h.over ht) ha

/-! ## Literals -/

/-- Arrays and lists have one argument. -/
theorem Session.exists_arg_of_isArray {d : TypeCtor} {args : List Ty}
    (ht : (Ty.applied d args).Over s.vocabulary) (hbuiltin : d.builtin)
    (hname : d.name = s.language.arrayName ∨ d.name = s.language.arrayListName) :
    ∃ b, args = [b] := by
  have hlength := ht.length_args
  rcases ht.mem_classes with hd | ⟨c, -, -, rfl⟩
  · rcases hname with hname | hname
    · rw [hd.eq_of_name .array hname] at hlength
      exact List.length_eq_one_iff.mp hlength
    · rw [hd.eq_of_name .arrayList hname] at hlength
      exact List.length_eq_one_iff.mp hlength
  · cases hbuiltin

/-- If the type is a class applied to arguments, there is one argument. -/
def Ty.IsPlainOrUnary (t : Ty) : Prop := ∀ c args, t = .applied c args → ∃ b, args = [b]

namespace Gen

theorem integerText_yields {f : IntFormat} {lo hi : Int} :
    (integerText f lo hi).Yields Session.OnlyDraws s fun _ _ => True := by
  unfold integerText
  exact Yields.bind (Q := fun _ _ => True) (.rand fun _ _ _ => trivial) fun _ _ _ _ => .pure trivial

theorem letter_yields : letter.Yields Session.OnlyDraws s fun _ _ => True := by
  unfold letter
  exact Yields.bind (Q := fun _ _ => True) (.rand fun _ _ _ => trivial) fun _ _ _ _ => .pure trivial

theorem decimalText_yields : decimalText.Yields Session.OnlyDraws s fun _ _ => True := by
  unfold decimalText
  exact integerText_yields.bind fun _ _ _ _ => integerText_yields.bind fun _ _ _ _ => .pure trivial

theorem literalText_yields {k : BuiltinKind} :
    (literalText l k).Yields Session.OnlyDraws s fun _ _ => True := by
  cases k with
  | integer | number | short | byte | long =>
    exact integerText_yields.bind fun _ _ _ _ => .pure trivial
  | float | double => exact decimalText_yields.bind fun _ _ _ _ => .pure trivial
  | char => exact letter_yields.bind fun _ _ _ _ => .pure trivial
  | string =>
    refine Yields.bind (Q := fun _ _ => True) (.rand fun _ _ _ => trivial) fun _ _ _ _ => ?_
    refine (Yields.times (G := fun _ _ => True) (fun _ _ => letter_yields) fun _ _ _ _ _ =>
      trivial).bind fun _ _ _ _ => .pure trivial
  | boolean => exact Yields.coin.bind fun _ _ _ _ => .pure trivial
  | any | nothing | void => exact .pure trivial

/-- The literal of an array has the type of the array. -/
theorem genArray_typed {d : TypeCtor} {elem : Ty} (he : e.Sound) (hs : s.WellTyped)
    (ht : (Ty.applied d [elem]).Over s.vocabulary) :
    (genArray e (.applied d [elem])).Yields Session.Typed s fun a s' =>
      a.Fits s'.vocabulary (.applied d [elem]) := by
  unfold genArray
  refine .get ?_
  extract_lets l literal
  have helem : elem.Over s.vocabulary := ht.arg List.mem_cons_self
  have hliteral : ∀ stream, (literal elem).Yields Session.Typed (s.atStream stream) fun a s' =>
      a.Fits s'.vocabulary (.applied d [elem]) := by
    intro stream
    have hs₁ := hs.atStream stream
    refine Yields.bind (Yields.of_onlyDraws (Q := fun _ _ => True) (.rand fun _ _ _ => trivial))
      fun count s₂ _ h₂ => ?_
    obtain ⟨⟨stream₂, rfl⟩, -⟩ := h₂
    have hs₂ := hs₁.atStream stream₂
    refine (nested_typed (Q := fun _ _ => True) hs₂ fun s₃ hs₃ hv => ?_).bind
      fun elems s₃ h₃ _ => .pure ?_
    · refine (Yields.times (G := fun _ _ => True) (fun s₄ h₄ => ?_) fun _ _ _ _ _ => trivial).mono
        fun _ _ _ _ => trivial
      obtain ⟨hgrows, hs₄⟩ := h₄ hs₃
      exact (he.expr hs₄ (hgrows.over (hv ▸ helem))).mono fun _ _ _ _ => trivial
    · exact (h₃ hs₂).1.fits ht rfl
  show Yields _ (concretize elem >>= literal) s _
  refine Yields.bind (Yields.of_onlyDraws (concretize_typed helem)) fun u s₁ _ h₁ => ?_
  obtain ⟨⟨stream, rfl⟩, rfl⟩ := h₁
  exact hliteral stream

theorem genConstant_typed (he : e.Sound) (hs : s.WellTyped) (ht : t.Over s.vocabulary)
    (hunary : t.IsPlainOrUnary) :
    (genConstant e t).Yields Session.Typed s fun a s' => a.Fits s'.vocabulary t := by
  unfold genConstant
  split
  · rename_i d args
    obtain ⟨elem, rfl⟩ := hunary d args rfl
    exact genArray_typed he hs ht
  · refine .get (Yields.bind (Yields.of_onlyDraws literalText_yields) fun text s₁ _ h₁ => ?_)
    obtain ⟨⟨stream, rfl⟩, -⟩ := h₁
    split
    · exact .pure (.of_ty? ht rfl)
    · exact he.new (hs.atStream stream) ht
  · exact he.new hs ht

end Gen

/-! ## Operators -/

/-- Operands of arithmetic are numbers or strings. -/
theorem Language.over_arithOperands {x : Ty × List Language.BinaryOp}
    (hx : x ∈ s.language.arithOperands t) : x.1.Over s.vocabulary := by
  obtain ⟨operand, hoperand, h⟩ := List.mem_filterMap.mp hx
  split at h
  · cases h
  · cases h
    rcases List.mem_append.mp hoperand with h | h
    · obtain ⟨k, -, rfl⟩ := List.mem_map.mp h
      exact s.over_builtin k
    · rw [List.mem_singleton.mp h]
      exact s.over_builtin .string

namespace Gen

theorem genOperands_typed {lhs rhs : Ty} {o : ExprOpts} (he : e.Sound) (hs : s.WellTyped)
    (hlhs : lhs.Over s.vocabulary) (hrhs : rhs.Over s.vocabulary) :
    (genOperands e lhs rhs o).Yields Session.Typed s fun _ _ => True := by
  unfold genOperands
  refine nested_typed hs fun s₁ hs₁ hv => ?_
  refine (he.expr hs₁ (hv ▸ hlhs)).bind fun _ s₂ h₂ _ => ?_
  obtain ⟨hgrows, hs₂⟩ := h₂ hs₁
  exact (he.expr hs₂ (hgrows.over (hv ▸ hrhs))).bind fun _ _ _ _ => .pure trivial

theorem genLogical_typed (he : e.Sound) (hs : s.WellTyped) (ht : t.Over s.vocabulary) :
    (genLogical e t).Yields Session.Typed s fun a s' => a.Fits s'.vocabulary t := by
  unfold genLogical
  refine Yields.bind (Yields.of_onlyDraws Yields.coin) fun _ s₁ _ h₁ => ?_
  obtain ⟨⟨stream, rfl⟩, -⟩ := h₁
  have hs₁ := hs.atStream stream
  refine (genOperands_typed he hs₁ ht ht).bind fun _ s₂ h₂ _ => .pure ?_
  exact (h₂ hs₁).1.fits ht rfl

theorem genEquality_typed (he : e.Sound) (hs : s.WellTyped) (ht : t.Over s.vocabulary) :
    (genEquality e t).Yields Session.Typed s fun a s' => a.Fits s'.vocabulary t := by
  unfold genEquality
  refine Yields.bind (Yields.of_onlyDraws (selectType_typed hs)) fun operand s₁ _ h₁ => ?_
  obtain ⟨⟨stream₁, rfl⟩, hoperand, -⟩ := h₁
  refine Yields.bind (Yields.of_onlyDraws Yields.coin) fun _ s₂ _ h₂ => ?_
  obtain ⟨⟨stream₂, rfl⟩, -⟩ := h₂
  have hs₂ := (hs.atStream stream₁).atStream stream₂
  refine (genOperands_typed he hs₂ hoperand hoperand).bind fun _ s₃ h₃ _ => .pure ?_
  exact (h₃ hs₂).1.fits ht rfl

/-- Numbers, characters and strings can be compared. -/
theorem genComparison_typed (he : e.Sound) (hs : s.WellTyped) (ht : t.Over s.vocabulary)
    (hunary : t.IsPlainOrUnary) :
    (genComparison e t).Yields Session.Typed s fun a s' => a.Fits s'.vocabulary t := by
  unfold genComparison
  refine .get ?_
  extract_lets l others
  -- Whatever is compared is a library type, so no class has to be looked up for it.
  have hothers : ∀ u ∈ l.numberTypes ++ others, u.Over s.vocabulary := by
    intro u hu
    have hl : l = s.language := rfl
    clear_value l
    have hbuiltin : ∃ k, u = l.builtin k := by
      rcases List.mem_append.mp hu with hu | hu
      · obtain ⟨k, -, rfl⟩ := List.mem_map.mp hu
        exact ⟨k, rfl⟩
      · have hcases : u = l.builtin .char ∨ u = l.builtin .string := by
          cases l <;> simp_all [others, Language.stringType]
        exact hcases.elim (fun h => ⟨_, h⟩) fun h => ⟨_, h⟩
    obtain ⟨k, rfl⟩ := hbuiltin
    exact hl ▸ s.over_builtin k
  refine Yields.bind (Yields.of_onlyDraws Yields.pick) fun picked s₁ _ h₁ => ?_
  obtain ⟨⟨stream₁, rfl⟩, hpicked⟩ := h₁
  have hs₁ := hs.atStream stream₁
  split
  · exact genConstant_typed he hs₁ ht hunary
  · rename_i lhs
    have hlhs := hothers lhs (hpicked lhs rfl)
    extract_lets compare
    -- The left side is fixed here; the right side is that type again or another number.
    have hcompare : ∀ (s' : Session) (rhs : Ty), s.Grows s' → s'.WellTyped → rhs.Over s.vocabulary →
        (compare rhs).Yields Session.Typed s' fun a s'' => a.Fits s''.vocabulary t := by
      intro s' rhs hgrows hs' hrhs
      refine Yields.pick.bind fun _ s₂ h₂ _ => ?_
      obtain ⟨hgrows₂, hs₂⟩ := h₂ hs'
      extract_lets op
      refine (genOperands_typed he hs₂ (hgrows₂.over (hgrows.over hlhs))
        (hgrows₂.over (hgrows.over hrhs))).bind fun _ s₃ h₃ _ => .pure ?_
      exact (h₃ hs₂).1.fits (hgrows₂.over (hgrows.over ht)) rfl
    have hgrows₁ := Session.Grows.atStream s stream₁
    split
    · refine Yields.bind (Yields.of_onlyDraws Yields.pick) fun second s₂ _ h₂ => ?_
      obtain ⟨⟨stream₂, rfl⟩, hsecond⟩ := h₂
      refine .pass (hcompare _ _ (hgrows₁.trans (.atStream _ stream₂)) (hs₁.atStream stream₂) ?_)
      cases second with
      | none => exact hlhs
      | some rhs => exact hothers rhs (List.mem_append_left _ (hsecond rhs rfl))
    · exact .pass (hcompare _ lhs hgrows₁ hs₁ hlhs)

theorem genArith_typed (he : e.Sound) (hs : s.WellTyped) (ht : t.Over s.vocabulary)
    (hunary : t.IsPlainOrUnary) :
    (genArith e t).Yields Session.Typed s fun a s' => a.Fits s'.vocabulary t := by
  unfold genArith
  refine .get (Yields.bind (Yields.of_onlyDraws Yields.pick) fun picked s₁ _ h₁ => ?_)
  obtain ⟨⟨stream₁, rfl⟩, hpicked⟩ := h₁
  have hs₁ := hs.atStream stream₁
  split
  · exact genConstant_typed he hs₁ ht hunary
  · rename_i operand ops
    have hoperand : operand.Over s.vocabulary := Language.over_arithOperands (hpicked _ rfl)
    refine Yields.bind (Yields.of_onlyDraws Yields.pick) fun chosen s₂ _ h₂ => ?_
    obtain ⟨⟨stream₂, rfl⟩, -⟩ := h₂
    have hs₂ := hs₁.atStream stream₂
    split
    refine (genOperands_typed he hs₂ hoperand hoperand).bind fun _ s₃ h₃ _ => .pure ?_
    exact (h₃ hs₂).1.fits ht rfl

end Gen

/-! ## Function values -/

variable {params : List Ty} {ret : Ty}

theorem Session.over_functionType (s : Session) (hparams : ∀ p ∈ params, p.Over s.vocabulary)
    (hret : ret.Over s.vocabulary) : (s.language.functionType params ret).Over s.vocabulary := by
  refine .applied (.inl (.function _)) (by simp [Language.functionCtor]) fun u hu => ?_
  rcases List.mem_append.mp hu with hu | hu
  · exact hparams u hu
  · exact List.mem_singleton.mp hu ▸ hret

/-- **A function type is known by its signature.** -/
theorem Session.functionType_eq (ht : t.Over s.vocabulary)
    (h : t.functionSignature? = some (params, ret)) : s.language.functionType params ret = t := by
  obtain ⟨c, hc, rfl⟩ := Ty.exists_of_functionSignature? h
  rcases ht.mem_classes with hclass | ⟨d, -, -, rfl⟩
  · have hlength := ht.length_args
    cases hclass with
    | function n =>
      have hn : params.length = n := by simpa [Language.functionCtor] using hlength
      rw [Language.functionType, hn]
      rfl
    | _ =>
      generalize s.language = l at hc
      cases l <;> exact absurd hc (by decide)
  · cases hc

/-- A reference to a function is for the type that is asked for. -/
theorem Session.ty?_matchingFuncRefs (h : a ∈ s.matchingFuncRefs t params ret) :
    a.ty? = some t := by
  rcases List.mem_append.mp h with h | h
  · obtain ⟨f, -, h⟩ := List.mem_filterMap.mp h
    split at h
    · cases h
    · split at h
      · obtain ⟨this, -, rfl⟩ := Option.map_eq_some_iff.mp h
        rfl
      · cases h
        rfl
  · obtain ⟨d, -, h⟩ := List.mem_flatMap.mp h
    split at h
    · cases h
    · split at h
      · cases h
      · obtain ⟨f, -, rfl⟩ := List.mem_map.mp h
        rfl

namespace Gen

/-- **A closure has the type of its signature**, or of the interface that it implements. -/
theorem genLambda_typed {samTarget : Option Ty} (he : e.Sound) (hs : s.WellTyped)
    (hparams : ∀ p ∈ params, p.Over s.vocabulary) (hret : ret.Over s.vocabulary) :
    (genLambda e params ret samTarget).Yields Session.Typed s fun a _ =>
      a.ty? = some (samTarget.getD (s.language.functionType params ret)) := by
  unfold genLambda
  refine Yields.bind (Q := fun _ s' => s' = { s with lambdaCount := s.lambdaCount + 1 })
    (.modify (Session.typed_withCounts _ _ _ _) rfl) fun _ s₁ h₁ heq => .get ?_
  obtain ⟨-, hs₁⟩ := h₁ hs
  subst heq
  extract_lets name parent ns enter
  refine Yields.bind (Q := fun (lambda : LambdaDecl) _ => lambda.samTarget = samTarget ∧
    lambda.signature = s.language.functionType params ret) ?_ fun lambda s₂ h₂ hlambda => ?_
  · refine inFrame_typed hs₁ (by simp [enter, Frame.enter, ns, Namespace.child])
      fun s₂ heq hs₂ hv => ?_
    refine (Yields.mapM (G := fun _ _ _ => True) (fun t ht s₃ h₃ => ?_) fun _ _ _ _ _ _ => trivial).bind
      fun decls s₃ h₃ _ => ?_
    · obtain ⟨hgrows₃, hs₃⟩ := h₃ hs₂
      refine (word_typed hs₃).bind fun w s₄ h₄ _ => ?_
      extract_lets p
      refine (addVar_typed fun u hu => ?_).bind fun _ _ _ _ => .pure trivial
      rw [List.mem_singleton.mp hu]
      exact (h₄ hs₃).1.over (hgrows₃.over (hv ▸ hparams t ht))
    · obtain ⟨hgrows₃, hs₃⟩ := h₃ hs₂
      exact (he.body hs₃ (hgrows₃.over (hv ▸ hret))).bind fun _ _ _ _ => .pure ⟨rfl, rfl⟩
  · have htypes : ∀ u ∈ (Decl.lambda lambda).types, u.Over s₂.vocabulary :=
      fun _ h => absurd h List.not_mem_nil
    refine (addDecl_typed (by simp [Decl.kind]) htypes).bind fun _ _ _ _ => .pure ?_
    rw [Expr.ty?, hlambda.1, hlambda.2]

theorem genFuncValue_typed (he : e.Sound) (hs : s.WellTyped) (ht : t.Over s.vocabulary) :
    (genFuncValue e t).Yields Session.Typed s fun a s' => a.Fits s'.vocabulary t := by
  unfold genFuncValue
  split
  · exact .pure (.of_ty? ht rfl)
  rename_i params ret hsignature
  obtain ⟨hparams, hret⟩ := ht.functionSignature? hsignature
  refine .get ?_
  extract_lets use
  have huse : ∀ (stream : Stream) (r : Option Expr), (∀ a ∈ r, a.ty? = some t) →
      (use r).Yields Session.Typed (s.atStream stream) fun a s' => a.Fits s'.vocabulary t := by
    intro stream r hr
    have hs₁ := hs.atStream stream
    unfold use
    split
    · exact .pure (.of_ty? ht (hr _ rfl))
    · refine (genLambda_typed he hs₁ hparams hret).mono fun a s₂ h₂ ha => ?_
      refine (h₂ hs₁).1.fits ht (ha.trans ?_)
      rw [Option.getD_none]
      exact congrArg some (Session.functionType_eq ht hsignature)
  refine Yields.bind (Yields.of_onlyDraws (Yields.onlyIf Yields.chance)) fun refer s₁ _ h₁ => ?_
  obtain ⟨⟨stream₁, rfl⟩, -⟩ := h₁
  split
  · refine Yields.bind (Yields.of_onlyDraws Yields.pick) fun picked s₂ _ h₂ => ?_
    obtain ⟨⟨stream₂, rfl⟩, hpicked⟩ := h₂
    exact huse stream₂ picked fun a ha => Session.ty?_matchingFuncRefs (hpicked a ha)
  · exact .pass (huse stream₁ none fun _ h => by cases h)

/-! ## Instances -/

theorem genInstance_typed (he : e.Sound) (hs : s.WellTyped) (ht : t.Over s.vocabulary)
    (hc : c ∈ s.classes) (hm : m.Over s.vocabulary) :
    (genInstance e t c m).Yields Session.Typed s fun a s' => a.Fits s'.vocabulary t := by
  unfold genInstance
  refine .get ?_
  extract_lets limit
  refine (nested_typed (Q := fun _ _ => True) hs fun s₁ hs₁ hv => ?_).bind
    fun args s₁ h₁ _ => .pure ((h₁ hs).1.fits ht rfl)
  refine (Yields.mapM (G := fun _ _ _ => True) (fun f hf s₂ h₂ => .get ?_) fun _ _ _ _ _ _ =>
    trivial).mono fun _ _ _ _ => trivial
  obtain ⟨hgrows, hs₂⟩ := h₂ hs₁
  have hfield : (f.ty.subst m).Over s₂.vocabulary :=
    hgrows.over (hv ▸ hm.subst (hs.field_over hc hf))
  exact (he.expr hs₂ hfield).mono fun _ _ _ _ => trivial

end Gen

/-- The class that implements a type is below it. -/
theorem Session.WellTyped.isSubtype_implementation (hs : s.WellTyped) (hc : c ∈ s.classes)
    (hplain : c.typeParams = []) (hsupers : c.supertypes = [t]) :
    c.type.Over s.vocabulary ∧ c.type.isSubtype t := by
  have htype : c.type = .simple c.name [t] := by
    rw [ClassDecl.type, hplain, hsupers]
    rfl
  have ht : t.Over s.vocabulary := hs.super_over hc (by simp [hsupers])
  have hover : (Ty.simple c.name [t]).Over s.vocabulary := .simple fun u hu =>
    List.mem_singleton.mp hu ▸ ht
  rw [htype]
  exact ⟨hover, hover.isSubtype_of_up ht List.mem_cons_self (Ty.isSubtype_refl t)⟩

namespace Gen

/-- **A class that is declared to implement a type is below it.** -/
theorem genImplementation_typed (he : e.Sound) (hs : s.WellTyped) (ht : t.Over s.vocabulary) :
    (genImplementation e t).Yields Session.Typed s fun a s' => a.Fits s'.vocabulary t := by
  unfold genImplementation
  split
  · exact .pure (.of_ty? ht rfl)
  rename_i hclosed
  refine .get ?_
  split
  · exact .pure (.of_ty? ht rfl)
  rename_i sup m hreceiver
  obtain ⟨hsup, hm⟩ := Session.mem_of_receiver? ht hreceiver
  refine (className_free hs).bind fun name s₁ h₁ hname => ?_
  obtain ⟨hgrows₁, hs₁⟩ := h₁ hs
  have ht₁ := hgrows₁.over ht
  extract_lets ns plain declare
  -- What the rest needs of the frame is only that a class of this name, with the type above it, is
  -- declared.
  refine Yields.bind (Q := fun _ s' => ∃ c ∈ s'.classes, c.name = name ∧ c.typeParams = [] ∧
    c.supertypes = [t]) ?_ fun _ s₂ h₂ hmade => .get (.pure ?_)
  · refine inFrame_typed hs₁ (by simp [Frame.enterClass, Frame.enter, ns, Namespace.child])
      fun s₂ heq hs₂ hv => ?_
    have ht₂ : t.Over s₂.vocabulary := hv ▸ ht₁
    have hm₂ : m.Over s₂.vocabulary := hm.mono fun u hu => hv ▸ hgrows₁.over hu
    have hdeclare : ∀ (s₃ : Session) (args : Option (List Expr)), s₂.Grows s₃ → s₃.WellTyped →
        (declare args).Yields Session.Typed s₃ fun _ s' => ∃ c ∈ s'.classes, c.name = name ∧
          c.typeParams = [] ∧ c.supertypes = [t] := by
      intro s₃ args hgrows hs₃
      have ht₃ := hgrows.over ht₂
      -- A closed type mentions no type parameter, so it may stand at any variance.
      have hvaries : t.VariesIn [] .covariant := by
        refine Ty.NamesIn.variesIn ((ht.namesIn (N := fun _ => False) fun p hp => ?_).mono fun _ h => h.elim)
        exact Ty.hasVariables_eq_false.mp (by simpa using hclosed) p hp
      refine (addClass_typed (c := { plain with supers := [⟨t, args⟩], isFinal := true })
        (fun u hu => ?_) ⟨?_, trivial, fun u hu => ?_⟩).bind fun _ s₄ h₄ hmem => ?_
      · simp only [ClassDecl.types, plain, ClassDecl.plain, ClassDecl.supertypes,
          ClassDecl.fieldTypes, List.map_cons, List.map_nil, List.flatMap_nil, List.append_nil, List.nil_append,
          List.mem_singleton] at hu
        exact hu ▸ ht₃
      · rw [hgrows.language, heq]
        exact hname.name_ne
      · rw [List.mem_singleton.mp hu]
        exact hvaries
      · obtain ⟨hgrows₄, hs₄⟩ := h₄ hs₃
        refine whileUnfinished_typed hs₄ (.get ?_)
        -- Overriding the abstract members adds to the class body and leaves the header as it was
        -- declared.
        refine (Yields.forM fun x hx s₅ h₅ => ?_).mono fun _ s₅ h₅ _ => ?_
        · obtain ⟨hgrows₅, hs₅⟩ := h₅ hs₄.withUnfinished
          obtain ⟨hf, hview⟩ := hs₄.abstractMembers_over (hgrows₄.over ht₃) hx
          refine (overrideFunc_typed he hs₅ rfl (fun u hu => hgrows₅.over (hf u hu))
            (hview.mono fun _ => hgrows₅.over)).bind fun _ _ _ _ => .pure trivial
        · obtain ⟨c, hc, hheader⟩ := (h₅ hs₄.withUnfinished).1.headers _ hmem
          refine ⟨c, hc, congrArg ClassDecl.name hheader, congrArg ClassDecl.typeParams hheader, ?_⟩
          exact congrArg ClassDecl.supertypes hheader
    split
    · exact .pass (hdeclare s₂ none (.refl s₂) hs₂)
    · refine (Yields.map (P := fun _ _ => True) (genSuperArgs_typed he hs₂ (fun f hf => ?_) hm₂)).bind
        fun args s₃ h₃ _ => hdeclare s₃ args (h₃ hs₂).1 (h₃ hs₂).2
      exact hv ▸ hgrows₁.over (hs.field_over hsup hf)
  · obtain ⟨c, hc, hcname, hplain, hsupers⟩ := hmade
    obtain ⟨hgrows₂, hs₂⟩ := h₂ hs₁
    have ht₂ := hgrows₂.over ht₁
    cases hfound : s₂.class? name with
    | none => exact .of_ty? ht₂ rfl
    | some d =>
      obtain ⟨hdname, hd⟩ := Session.mem_of_class? hfound
      -- Class names are distinct, so the class found under the name is the one just declared.
      obtain rfl := hs₂.eq_of_name hd hc (hdname.trans hcname.symm)
      obtain ⟨hover, hsub⟩ := hs₂.isSubtype_implementation hd hplain hsupers
      exact .of_assignable hover rfl (Ty.isAssignable_of_isSubtype hsub)

end Gen

/-- The function of an interface of one function is one that the interface leaves. -/
theorem mem_of_samFunction? {C : Context} {x : FuncDecl × Subst} (h : samFunction? C t = some x) :
    x ∈ abstractMembers C t := by
  unfold samFunction? at h
  extract_lets isClassType at h
  split at h
  · cases h
  · split at h
    · cases h
    · split at h
      · cases h
      · split at h
        · rename_i hmembers
          obtain ⟨-, h⟩ := Option.ite_none_left_eq_some.mp h
          cases h
          rw [hmembers]
          exact List.mem_singleton_self _
        · cases h

/-- The signature of an interface of one function is over the session. -/
theorem Session.WellTyped.over_samSignature? (hs : s.WellTyped) (ht : t.Over s.vocabulary)
    (h : samSignature? s.context s.language t = some u) : u.Over s.vocabulary := by
  unfold samSignature? at h
  split at h
  · cases h
  · rename_i f m hfound
    obtain ⟨hf, hm⟩ := hs.abstractMembers_over ht (mem_of_samFunction? hfound)
    obtain ⟨-, h⟩ := Option.ite_none_left_eq_some.mp h
    cases h
    refine s.over_functionType (fun p hp => ?_) (hm.subst (hf _ List.mem_cons_self))
    obtain ⟨q, hq, rfl⟩ := List.mem_map.mp hp
    exact hm.subst (hf q (List.mem_append_left _ (List.mem_cons_of_mem _ hq)))

namespace Gen

/-- A closure for an interface. -/
theorem genSamLambda_typed (he : e.Sound) (hs : s.WellTyped) (ht : t.Over s.vocabulary) :
    (genSamLambda e t).Yields Session.Typed s fun o _ => ∀ a ∈ o, a.ty? = some t := by
  unfold genSamLambda
  refine .get ?_
  split
  · rename_i params ret hsignature
    obtain ⟨signature, hsam, hparts⟩ := Option.bind_eq_some_iff.mp hsignature
    obtain ⟨hparams, hret⟩ := (hs.over_samSignature? ht hsam).functionSignature? hparts
    refine Yields.map ((genLambda_typed he hs hparams hret).mono fun a s₁ _ ha b hb => ?_)
    cases hb
    exact ha
  · exact .pure nofun

/-- A concrete subtype, if one is known. -/
theorem concreteSubtype_typed (hs : s.WellTyped) (ht : t.Over s.vocabulary) :
    (concreteSubtype t).Yields Session.OnlyDraws s fun o _ =>
      ∀ u ∈ o, u.Over s.vocabulary ∧ u.isSubtype t := by
  unfold concreteSubtype
  refine .get (Yields.pick.bind fun picked s₁ h₁ hpicked => ?_)
  obtain ⟨stream, rfl⟩ := h₁
  have hfound : ∀ u ∈ picked, t.FoundBelow s.vocabulary u := fun u hu =>
    hs.foundBelow_of_mem ht (by simp) (hpicked u hu)
  have hfilter : ∀ o : Option Ty, (∀ u ∈ o, u.Over s.vocabulary) →
      ∀ u ∈ o.filter (·.isSubtype t), u.Over s.vocabulary ∧ u.isSubtype t := by
    intro o ho u hu
    obtain ⟨hmem, hsub⟩ := Option.filter_eq_some_iff.mp hu
    exact ⟨ho u hmem, hsub⟩
  split
  · rename_i c
    have hc : s.HasClass c := (hfound _ rfl).mem_classes
    refine (instantiate_typed (hs.atStream stream) hc .empty).bind fun r s₂ _ hr => .pass (.pure ?_)
    refine hfilter _ fun u hu => ?_
    obtain ⟨x, hx, rfl⟩ := Option.map_eq_some_iff.mp (Option.mem_def.mp hu)
    exact (hr x hx).1
  · rename_i hcon
    refine .pass (.pure (hfilter _ fun u hu => ?_))
    rcases hfound u hu with ⟨c, -, rfl⟩ | ⟨hover, -⟩
    · exact absurd hu (hcon c)
    · exact hover

/-- **A value of a class type is of that type or of a concrete subtype.** -/
theorem genNewClass_typed {sam : Bool} (he : e.Sound) (hs : s.WellTyped) (ht : t.Over s.vocabulary) :
    (genNewClass e t sam).Yields Session.Typed s fun a s' => a.Fits s'.vocabulary t := by
  unfold genNewClass
  refine .get ?_
  split
  · exact .pure (.of_ty? ht rfl)
  extract_lets construct
  -- With a closure there is nothing left to build; without one the receiver decides.
  have hconstruct : ∀ (s₁ : Session) (closure : Option Expr), s.Grows s₁ → s₁.WellTyped →
      (∀ a ∈ closure, a.ty? = some t) →
      (construct closure).Yields Session.Typed s₁ fun a s' => a.Fits s'.vocabulary t := by
    intro s₁ closure hgrows hs₁ hclosure
    have ht₁ := hgrows.over ht
    unfold construct
    split
    · exact .pure (.of_ty? ht₁ (hclosure _ rfl))
    refine .get ?_
    split
    · exact .pure (.of_ty? ht₁ rfl)
    rename_i c m hreceiver
    obtain ⟨hc, hm⟩ := Session.mem_of_receiver? ht₁ hreceiver
    split
    · exact genInstance_typed he hs₁ ht₁ hc hm
    · refine Yields.bind (Yields.of_onlyDraws (concreteSubtype_typed hs₁ ht₁)) fun o s₂ _ h₂ => ?_
      obtain ⟨⟨stream, rfl⟩, hsub⟩ := h₂
      have hs₂ := hs₁.atStream stream
      split
      · rename_i sub
        obtain ⟨hover, hbelow⟩ := hsub sub rfl
        refine (he.new hs₂ hover).mono fun a s₃ h₃ ha => ?_
        obtain ⟨hgrows₃, hs₃⟩ := h₃ hs₂
        exact ha.of_isSubtype (T := hs₃.table) (hgrows₃.over hover) (hgrows₃.over ht₁) hbelow
      · exact genImplementation_typed he hs₂ ht₁
  refine Yields.bind (Yields.of_onlyDraws (Yields.onlyIf Yields.chance)) fun coerce s₁ _ h₁ => ?_
  obtain ⟨⟨stream, rfl⟩, -⟩ := h₁
  have hs₁ := hs.atStream stream
  split
  · refine (genSamLambda_typed he hs₁ ht).bind fun closure s₂ h₂ hclosure => ?_
    obtain ⟨hgrows₂, hs₂⟩ := h₂ hs₁
    exact hconstruct s₂ closure ((Session.Grows.atStream s stream).trans hgrows₂) hs₂ hclosure
  · exact .pass (hconstruct _ none (.atStream s stream) hs₁ fun _ h => by cases h)

/-- **A new value is of the type that is asked for, or below it.** -/
theorem genNew_typed {sam : Bool} (he : e.Sound) (hs : s.WellTyped) (ht : t.Over s.vocabulary) :
    (genNew e t sam).Yields Session.Typed s fun a s' => a.Fits s'.vocabulary t := by
  have hunresolved : ∀ s' : Session, t.Over s'.vocabulary →
      (pure (.unresolved t) : Gen Expr).Yields Session.Typed s' fun a s'' =>
        a.Fits s''.vocabulary t := fun s' ht' => .pure (.of_ty? ht' rfl)
  unfold genNew
  refine .get ?_
  extract_lets l
  -- The cases are those of the type, and the types that cannot be built give an unresolved value of
  -- that type.
  cases ht with
  | param hb => exact hunresolved s (.param hb)
  | constructor hbare => exact hbare.elim
  | simple hss => exact genNewClass_typed he hs (.simple hss)
  | @builtin n k l' p ss h =>
    have ht : (Ty.builtin n k l' p ss).Over s.vocabulary := .builtin h
    dsimp only
    split
    · exact .pure (.of_ty? ht rfl)
    · exact hunresolved s ht
    · exact hunresolved s ht
    · exact genConstant_typed he hs ht fun _ _ h => by cases h
  | @applied c args hc hlength hargs =>
    have ht : (Ty.applied c args).Over s.vocabulary := .applied hc hlength hargs
    show Yields _ (if c.builtin = true then if c.isFunction = true then _ else _ else _) _ _
    split
    · split
      · exact genFuncValue_typed he hs ht
      · split
        · rename_i hname
          have hname' : c.name = s.language.arrayName ∨ c.name = s.language.arrayListName := by
            simpa using hname
          obtain ⟨elem, rfl⟩ := Session.exists_arg_of_isArray ht ‹_› hname'
          exact genArray_typed he hs ht
        · exact hunresolved s ht
    · exact genNewClass_typed he hs ht

end Gen

end ProgramGen

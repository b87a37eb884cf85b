import ProgramGen.Proofs.Typing.Members
import ProgramGen.Synthesis.Expression

/-!
# Typed bodies and the engine

Loops and blocks keep a session well typed, conditionals have the type that is asked for whatever
their branches are narrowed to, and so every layer of the engine gives what is asked for.
-/

namespace ProgramGen

variable {s s' : Session} {t u : Ty} {e : Engine} {ns : Namespace} {o : ExprOpts}

/-! ## Loops -/

/-- A loop goes through a type of the session. -/
theorem Session.WellTyped.iterableTypes_over (hs : s.WellTyped) (h : t ∈ s.iterableTypes) :
    t.Over s.vocabulary := by
  have hlist : ∀ u : Ty, u.Over s.vocabulary → (s.language.arrayListOf u).Over s.vocabulary :=
    fun u hu => .applied (.inl .arrayList) rfl fun v hv => List.mem_singleton.mp hv ▸ hu
  have harray : ∀ u : Ty, u.Over s.vocabulary → (s.language.arrayOf u).Over s.vocabulary :=
    fun u hu => .applied (.inl .array) rfl fun v hv => List.mem_singleton.mp hv ▸ hu
  have hvalues : ∀ u ∈ s.language.valueTypes.filter fun t => !t.isConstructor,
      u.Over s.vocabulary := by
    intro u hu
    obtain ⟨hu, hcon⟩ := List.mem_filter.mp hu
    rcases Language.mem_valueTypes hu with ⟨k, rfl⟩ | rfl
    · exact s.over_builtin k
    · simp [Ty.isConstructor] at hcon
  unfold iterableTypes at h
  extract_lets l classes values arrays at h
  simp only [List.mem_append, List.mem_map, List.mem_singleton] at h
  rcases h with (⟨u, hu, rfl⟩ | h) | rfl
  · refine hlist u (hu.elim (fun hu => ?_) (hvalues u))
    obtain ⟨c, hc, rfl⟩ := List.mem_map.mp hu
    obtain ⟨hc, hplain⟩ := List.mem_filter.mp hc
    simp only [Bool.and_eq_true, Bool.not_eq_true'] at hplain
    exact hs.type_over hc (by simp [hplain.1])
  · have hmem : t ∈ values.map l.arrayOf := by
      have hl : l = s.language := rfl
      clear_value l
      cases l
      · exact h
      · simp [arrays] at h
    obtain ⟨u, hu, rfl⟩ := List.mem_map.mp hmem
    exact harray u (hvalues u hu)
  · exact s.over_builtin .integer

namespace Gen

theorem stringAccumulator_typed (he : e.Sound) (hs : s.WellTyped) :
    (stringAccumulator e).Yields Session.Typed s fun _ _ => True := by
  unfold stringAccumulator
  refine .get (Yields.bind (Yields.of_onlyDraws Yields.pick) fun picked s₁ _ h₁ => ?_)
  obtain ⟨⟨stream, rfl⟩, -⟩ := h₁
  have hs₁ := hs.atStream stream
  split
  · exact .pure trivial
  · refine (genVariableDecl_typed he hs₁ fun u hu => ?_).bind fun v s₂ h₂ _ => ?_
    · exact Option.some.inj hu ▸ s.over_builtin .string
    · exact (makeMutable_typed (h₂ hs₁).2).bind fun _ _ _ _ => .pure trivial

theorem genAppend_typed {var : String} (he : e.Sound) (hs : s.WellTyped) :
    (genAppend e var).Yields Session.Typed s fun _ _ => True := by
  unfold genAppend
  refine .get ?_
  extract_lets string
  refine (nested_typed (Q := fun _ _ => True) hs fun s₁ hs₁ hv => ?_).bind fun _ _ _ _ => .pure trivial
  exact (he.expr hs₁ (hv ▸ s.over_builtin .string)).mono fun _ _ _ _ => trivial

theorem genLoopStmts_typed (he : e.Sound) (hs : s.WellTyped) :
    (genLoopStmts e).Yields Session.Typed s fun _ _ => True := by
  unfold genLoopStmts
  refine .get ?_
  split
  · exact Yields.pick.bind fun _ _ _ _ => .pure trivial
  · refine (he.body hs (s.over_builtin .void)).bind fun _ _ _ _ => ?_
    split <;> exact .pure trivial

theorem genLoopBody_typed {string : Option String} {last : Option Expr} (he : e.Sound)
    (hs : s.WellTyped) (hns : ns.segments ≠ []) :
    (genLoopBody e ns string last).Yields Session.Typed s fun _ _ => True := by
  unfold genLoopBody
  refine inFrame_typed hs hns fun s₁ _ hs₁ _ => ?_
  refine (genLoopStmts_typed he hs₁).bind fun stmts s₂ h₂ _ => ?_
  obtain ⟨-, hs₂⟩ := h₂ hs₁
  extract_lets finish
  split
  · exact (genAppend_typed he hs₂).bind fun _ s₃ h₃ _ => .pass (.pure trivial)
  · exact .pass (.pure trivial)

theorem genCollectionLoop_typed {elem : Ty} {string : Option String} (he : e.Sound)
    (hs : s.WellTyped) (hns : ns.segments ≠ []) (ht : t.Over s.vocabulary)
    (helem : elem.Over s.vocabulary) :
    (genCollectionLoop e ns t elem string).Yields Session.Typed s fun _ _ => True := by
  unfold genCollectionLoop
  refine (nested_typed (Q := fun _ _ => True) hs fun s₁ hs₁ hv => ?_).bind fun iterable s₁ h₁ _ => ?_
  · exact (he.expr hs₁ (hv ▸ ht)).mono fun _ _ _ _ => trivial
  -- The element type stays well formed while the session grows, so it types the loop variable
  -- whichever head is chosen.
  obtain ⟨hgrows₁, hs₁⟩ := h₁ hs
  refine (word_typed hs₁).bind fun var s₂ h₂ _ => ?_
  obtain ⟨hgrows₂, hs₂⟩ := h₂ hs₁
  have helem₂ := hgrows₂.over (hgrows₁.over helem)
  refine Yields.chance.bind fun each s₃ h₃ _ => ?_
  obtain ⟨hgrows₃, hs₃⟩ := h₃ hs₂
  have helem₃ := hgrows₃.over helem₂
  split
  · refine (addVar_typed fun u hu => ?_).bind fun _ s₄ h₄ _ => ?_
    · exact List.mem_singleton.mp hu ▸ helem₃
    · exact (genLoopBody_typed he (h₄ hs₃).2 hns).bind fun _ _ _ _ => .pure trivial
  · refine .get ?_
    extract_lets iteratorType
    -- The explicit iterator is a library type over the element type.
    have hiterator : iteratorType.Over s₃.vocabulary := by
      refine .applied (.inl .iterator) rfl fun v hv => ?_
      exact List.mem_singleton.mp hv ▸ helem₃
    refine (word_typed hs₃).bind fun iterator s₄ h₄ _ => ?_
    obtain ⟨hgrows₄, hs₄⟩ := h₄ hs₃
    refine (addVar_typed fun u hu => ?_).bind fun _ s₅ h₅ _ => ?_
    · exact List.mem_singleton.mp hu ▸ hgrows₄.over hiterator
    obtain ⟨hgrows₅, hs₅⟩ := h₅ hs₄
    extract_lets read cond
    refine (addVar_typed fun u hu => ?_).bind fun _ s₆ h₆ _ => ?_
    · exact List.mem_singleton.mp hu ▸ hgrows₅.over (hgrows₄.over helem₃)
    · refine (genLoopBody_typed he (h₆ hs₅).2 hns).bind fun _ _ _ _ => ?_
      exact Yields.chance.bind fun _ _ _ _ => .pure trivial

theorem genCountingLoop_typed {string : Option String} (he : e.Sound) (hs : s.WellTyped)
    (hns : ns.segments ≠ []) :
    (genCountingLoop e ns string).Yields Session.Typed s fun _ _ => True := by
  unfold genCountingLoop
  refine .get ?_
  extract_lets int
  have hint : int.Over s.vocabulary := s.over_builtin .integer
  refine Yields.bind (Yields.of_onlyDraws Yields.chance) fun range s₁ _ h₁ => ?_
  obtain ⟨⟨stream₁, rfl⟩, -⟩ := h₁
  have hs₁ := hs.atStream stream₁
  split
  · refine Yields.bind (Yields.of_onlyDraws integerText_yields) fun stop s₂ _ h₂ => ?_
    obtain ⟨⟨stream₂, rfl⟩, -⟩ := h₂
    have hs₂ := hs₁.atStream stream₂
    refine (word_typed hs₂).bind fun var s₃ h₃ _ => ?_
    exact (genLoopBody_typed he (h₃ hs₂).2 hns).bind fun _ _ _ _ => .pure trivial
  · refine (word_typed hs₁).bind fun counter s₂ h₂ _ => ?_
    obtain ⟨hgrows₂, hs₂⟩ := h₂ hs₁
    refine (addVar_typed fun u hu => ?_).bind fun _ s₃ h₃ _ => ?_
    · exact List.mem_singleton.mp hu ▸ hgrows₂.over hint
    obtain ⟨-, hs₃⟩ := h₃ hs₂
    refine Yields.bind (Yields.of_onlyDraws integerText_yields) fun limit s₄ _ h₄ => ?_
    obtain ⟨⟨stream₄, rfl⟩, -⟩ := h₄
    have hs₄ := hs₃.atStream stream₄
    refine Yields.coin.bind fun strict s₅ h₅ _ => ?_
    refine (genLoopBody_typed he (h₅ hs₄).2 hns).bind fun _ _ _ _ => ?_
    exact Yields.coin.bind fun _ _ _ _ => .pure trivial

/-- A loop keeps the session well typed. -/
theorem genLoop_typed (he : e.Sound) (hs : s.WellTyped) :
    (genLoop e).Yields Session.Typed s fun _ _ => True := by
  unfold genLoop
  refine Yields.bind (Q := fun _ s' => s' = { s with loopCount := s.loopCount + 1 })
    (.modify (Session.typed_withCounts _ _ _ _) rfl) fun _ s₁ h₁ heq => .get ?_
  obtain ⟨-, hs₁⟩ := h₁ hs
  extract_lets ns
  have hns : ns.segments ≠ [] := by simp [ns, Namespace.child]
  refine Yields.bind (Yields.of_onlyDraws Yields.pick) fun picked s₂ _ h₂ => ?_
  obtain ⟨⟨stream₂, rfl⟩, hpicked⟩ := h₂
  extract_lets iterableType loop
  -- Where nothing iterable is in sight, the loop counts.
  have hiterable : iterableType.Over s₁.vocabulary := by
    cases picked with
    | none => exact s₁.over_builtin .integer
    | some t => exact hs₁.iterableTypes_over (hpicked t rfl)
  refine Yields.bind (Yields.of_onlyDraws Yields.chance) fun concat s₃ _ h₃ => ?_
  obtain ⟨⟨stream₃, rfl⟩, -⟩ := h₃
  have hs₃ := (hs₁.atStream stream₂).atStream stream₃
  -- The loop itself is the same with and without a string to append to.
  have hloop : ∀ (s₄ : Session) (string : Option String), s₁.Grows s₄ → s₄.WellTyped →
      (loop string).Yields Session.Typed s₄ fun _ _ => True := by
    intro s₄ string hgrows hs₄
    have hover := hgrows.over hiterable
    unfold loop
    extract_lets
    split
    · rename_i elem _ hargs
      have helem : elem.Over s₄.vocabulary := hover.of_mem_args (hargs ▸ List.mem_cons_self)
      exact (genCollectionLoop_typed he hs₄ hns hover helem).bind fun _ _ _ _ => .pure trivial
    · exact (genCountingLoop_typed he hs₄ hns).bind fun _ _ _ _ => .pure trivial
  have hgrows₃ := (Session.Grows.atStream s₁ stream₂).trans (.atStream _ stream₃)
  split
  · refine (Yields.map (P := fun _ _ => True) (stringAccumulator_typed he hs₃)).bind fun _ s₄ h₄ _ => ?_
    obtain ⟨hgrows₄, hs₄⟩ := h₄ hs₃
    exact hloop s₄ _ (hgrows₃.trans hgrows₄) hs₄
  · exact .pass (hloop _ none hgrows₃ hs₃)

end Gen

/-! ## Conditionals -/

/-- The variables whose type is tested are tested for types of the session. -/
theorem Session.WellTyped.testableVars_over (hs : s.WellTyped) {x : String × Ty}
    (hx : x ∈ s.testableVars) : x.2.Over s.vocabulary := by
  obtain ⟨d, hd, h⟩ := List.mem_flatMap.mp hx
  cases d with
  | var v =>
    dsimp only at h
    split at h
    · cases h
    · obtain ⟨u, hu, rfl⟩ := List.mem_map.mp h
      obtain ⟨hu, htestable⟩ := List.mem_filter.mp hu
      have hv := hs.readable_over hd rfl
      rcases hs.foundBelow_of_mem hv (fun _ => Language.offered_valueTypes) hu with ⟨c, -, rfl⟩ | ⟨h, -⟩
      · cases htestable
      · exact h
  | _ => cases h

namespace Gen

/-- A conditional has the type that is asked for. -/
theorem genConditional_typed (he : e.Sound) (hs : s.WellTyped) (ht : t.Over s.vocabulary) :
    (genConditional e t).Yields Session.Typed s fun a s' => a.Fits s'.vocabulary t := by
  unfold genConditional
  refine .get ?_
  extract_lets boolean
  refine nested_typed hs fun s₁ hs₁ hv => ?_
  have ht₁ : t.Over s₁.vocabulary := hv ▸ ht
  refine (he.expr hs₁ (hv ▸ s.over_builtin .boolean)).bind fun cond s₂ h₂ _ => ?_
  obtain ⟨hgrows₂, hs₂⟩ := h₂ hs₁
  refine Yields.bind (Yields.of_onlyDraws (narrow_typed hs₂ (hgrows₂.over ht₁))) fun u s₃ _ h₃ => ?_
  obtain ⟨⟨stream₃, rfl⟩, hu, -⟩ := h₃
  have hs₃ := hs₂.atStream stream₃
  refine (he.expr hs₃ hu).bind fun onTrue s₄ h₄ _ => ?_
  obtain ⟨hgrows₄, hs₄⟩ := h₄ hs₃
  have ht₄ : t.Over s₄.vocabulary := hgrows₄.over (s := s₂.atStream stream₃) (hgrows₂.over ht₁)
  refine Yields.bind (Yields.of_onlyDraws (narrow_typed hs₄ ht₄)) fun v s₅ _ h₅ => ?_
  obtain ⟨⟨stream₅, rfl⟩, hv', -⟩ := h₅
  have hs₅ := hs₄.atStream stream₅
  refine (he.expr hs₅ hv').bind fun onFalse s₆ h₆ _ => .pure ?_
  obtain ⟨hgrows₆, -⟩ := h₆ hs₅
  exact .of_ty? (hgrows₆.over (s := s₄.atStream stream₅) ht₄) rfl

theorem genBranch_typed {shadowed : Option String} (he : e.Sound) (hs : s.WellTyped)
    (ht : t.Over s.vocabulary) :
    (genBranch e t shadowed).Yields Session.Typed s fun _ _ => True := by
  unfold genBranch
  refine (he.expr hs ht).bind fun value s₁ _ _ => .get ?_
  extract_lets decls
  split <;> exact .pure trivial

theorem inBranch_typed {α : Type} {x : Gen α} (hs : s.WellTyped) (hns : ns.segments ≠ [])
    (h : ∀ s', s'.WellTyped → s'.vocabulary = s.vocabulary → x.Yields Session.Typed s' fun _ _ => True) :
    (inBranch ns x).Yields Session.Typed s fun _ _ => True :=
  inFrame_typed hs hns fun s' _ hs' hv => h s' hs' hv

/-- **A test of a type gives what is asked for** in either case. -/
theorem genTypeTest_typed (he : e.Sound) (hs : s.WellTyped) (ht : t.Over s.vocabulary) :
    (genTypeTest e t).Yields Session.Typed s fun a s' => a.Fits s'.vocabulary t := by
  unfold genTypeTest
  refine .get (Yields.bind (Yields.of_onlyDraws Yields.pick) fun picked s₁ _ h₁ => ?_)
  obtain ⟨⟨stream, rfl⟩, hpicked⟩ := h₁
  have hs₁ := hs.atStream stream
  split
  · exact he.expr hs₁ ht
  rename_i var sub
  have hsub : sub.Over s.vocabulary := hs.testableVars_over (hpicked _ rfl)
  refine Yields.bind (Q := fun _ s' => s' = { s.atStream stream with branchCount := s.branchCount + 1 })
    (.modify (Session.typed_withCounts _ _ _ _) rfl) fun _ s₂ h₂ heq => .get ?_
  obtain ⟨hgrows₂, hs₂⟩ := h₂ hs₁
  extract_lets n onTrueNs onFalseNs shadow
  have ht₂ : t.Over s₂.vocabulary := hgrows₂.over (s := s.atStream stream) ht
  have hsub₂ : sub.Over s₂.vocabulary := hgrows₂.over (s := s.atStream stream) hsub
  refine (inBranch_typed hs₂ (by simp [onTrueNs, Namespace.child]) fun s₃ hs₃ hv => ?_).bind
    fun onTrue s₃ h₃ _ => ?_
  · refine withShadow_typed hs₃ (fun u hu => ?_) fun s₄ hgrows₄ hs₄ => ?_
    · exact List.mem_singleton.mp hu ▸ hv ▸ hsub₂
    · exact (genBranch_typed he hs₄ (hgrows₄.over (hv ▸ ht₂))).mono fun _ _ _ _ => trivial
  obtain ⟨hgrows₃, hs₃⟩ := h₃ hs₂
  have ht₃ := hgrows₃.over ht₂
  refine (inBranch_typed hs₃ (by simp [onFalseNs, Namespace.child]) fun s₄ hs₄ hv => ?_).bind
    fun onFalse s₄ h₄ _ => .pure ((h₄ hs₃).1.fits ht₃ rfl)
  exact genBranch_typed he hs₄ (hv ▸ ht₃)

end Gen

/-! ## Expressions -/

/-- A type of literals is unary if it is a class applied to arguments. -/
theorem Session.isPlainOrUnary_of_hasConstant (ht : t.Over s.vocabulary) (h : s.hasConstant t) :
    t.IsPlainOrUnary := by
  rintro c args rfl
  simp only [Session.hasConstant, Bool.and_eq_true, beq_iff_eq] at h
  exact Session.exists_arg_of_isArray ht h.1 (.inl h.2)

/-- Operators give builtin types. -/
theorem Language.exists_result_eq {l : Language} {b : BinaryOp} (h : b ∈ l.binaryOps t) :
    ∃ k, b.result = l.builtin k := by
  unfold binaryOps at h
  extract_lets onAll at h
  have hall : ∀ (k : BuiltinKind) (cast : Bool), b ∈ onAll (l.builtin k) cast →
      ∃ k, b.result = l.builtin k := by
    intro k cast hb
    obtain ⟨op, -, rfl⟩ := List.mem_map.mp hb
    exact ⟨k, rfl⟩
  split at h
  · exact hall _ _ h
  · exact (List.mem_append.mp h).elim (hall _ _) (hall _ _)
  · exact (List.mem_append.mp h).elim (hall _ _) (hall _ _)
  · exact hall _ _ h
  · exact hall _ _ h
  · exact hall _ _ h
  · rw [List.mem_singleton.mp h]
    exact ⟨.string, rfl⟩
  · cases h

/-- Arithmetic gives builtin types only. -/
theorem Language.isPlainOrUnary_of_arithOperands {l : Language}
    (h : (l.arithOperands t).isEmpty = false) : t.IsPlainOrUnary := by
  obtain ⟨x, hx⟩ := List.exists_mem_of_ne_nil _ (List.isEmpty_eq_false_iff.mp h)
  obtain ⟨operand, -, h⟩ := List.mem_filterMap.mp hx
  split at h
  · cases h
  · rename_i hops
    obtain ⟨b, hb⟩ := List.exists_mem_of_ne_nil _ hops
    obtain ⟨hb, hresult⟩ := List.mem_filter.mp hb
    obtain ⟨k, hk⟩ := exists_result_eq hb
    obtain ⟨n, k', p, ss, hbuiltin⟩ := l.builtin_eq k
    have ht : t = .builtin n k' l p ss := by
      rw [← hbuiltin, ← hk]
      exact (beq_iff_eq.mp hresult).symm
    rintro c args rfl
    cases ht

/-- A way that is chosen for a type suits it. -/
structure Strategy.Suits (strategy : Strategy) (t : Ty) : Prop where
  constant : strategy = .constant ∨ strategy = .comparison ∨ strategy = .arith → t.IsPlainOrUnary
  assignment : strategy = .assignment → t.isVoid

theorem Session.suits_of_mem_strategies {strategy : Strategy} (ht : t.Over s.vocabulary)
    (h : strategy ∈ s.strategies t o) : strategy.Suits t := by
  unfold strategies at h
  extract_lets hasConstant reads value arith at h
  have hconstant : hasConstant → t.IsPlainOrUnary := isPlainOrUnary_of_hasConstant ht
  clear_value hasConstant
  -- Each group of strategies is read off on its own; then the split is on which groups are offered.
  have hreads : strategy ∈ reads → strategy = .variable := by
    simp only [reads]
    split <;> simp
  have hvalue : strategy ∈ value → strategy ≠ .assignment ∧ strategy ≠ .arith ∧
      (strategy = .constant ∨ strategy = .comparison → hasConstant) := by
    intro h
    simp only [value] at h
    split at h
    · rw [List.mem_singleton.mp h]
      simp
    · rename_i hconst
      have hconst : hasConstant = true := by simpa using hconst
      split at h
      · simp only [List.mem_cons, List.not_mem_nil, or_false] at h
        rcases h with rfl | rfl | rfl | rfl <;> simp [hconst]
      · rw [List.mem_singleton.mp h]
        simp [hconst]
  have harith : strategy ∈ arith → strategy = .arith ∧ t.IsPlainOrUnary := by
    simp only [arith]
    split
    · simp
    · rename_i hsome
      exact fun h => ⟨List.mem_singleton.mp h,
        Language.isPlainOrUnary_of_arithOperands (Bool.eq_false_iff.mpr hsome)⟩
  split at h
  · rename_i hvoid
    refine ⟨fun hs => ?_, fun _ => hvoid⟩
    simp only [List.mem_cons, List.not_mem_nil, or_false] at h
    rcases h with rfl | rfl <;> simp at hs
  split at h
  · split at h
    · rw [List.mem_singleton.mp h]
      exact ⟨fun _ => hconstant ‹_›, fun h => by cases h⟩
    · rcases List.mem_cons.mp h with rfl | h
      · exact ⟨by simp, fun h => by cases h⟩
      · rw [hreads h]
        exact ⟨by simp, fun h => by cases h⟩
  · simp only [List.mem_append, List.mem_cons, List.not_mem_nil, or_false] at h
    rcases h with ((h | h) | h) | h
    · rcases h with rfl | rfl | rfl | rfl <;> exact ⟨by simp, fun h => by cases h⟩
    · rw [hreads h]
      exact ⟨by simp, fun h => by cases h⟩
    · obtain ⟨hassign, harith, hc⟩ := hvalue h
      refine ⟨fun hs => hconstant (hc ?_), fun h => absurd h hassign⟩
      simpa [harith] using hs
    · rw [(harith h).1]
      exact ⟨fun _ => (harith h).2, fun h => by cases h⟩

namespace Gen

/-- **Each way to make an expression gives what is asked for.** -/
theorem genStrategy_typed {strategy : Strategy} (he : e.Sound) (hs : s.WellTyped)
    (ht : t.Over s.vocabulary) (hsuits : strategy.Suits t) :
    (genStrategy e strategy t o).Yields Session.Typed s fun a s' => a.Fits s'.vocabulary t := by
  unfold genStrategy
  split
  · exact genConstant_typed he hs ht (hsuits.constant (.inl rfl))
  · exact genVariable_typed he hs ht
  · exact genNew_typed he hs ht
  · exact genFieldAccess_typed he hs ht
  · exact genConditional_typed he hs ht
  · exact genTypeTest_typed he hs ht
  · exact genFuncCall_typed he hs ht
  · rw [ht.eq_voidType (fun _ h => h) (hsuits.assignment rfl)]
    exact genAssignment_typed he hs
  · exact genLogical_typed he hs ht
  · exact genEquality_typed he hs ht
  · exact genComparison_typed he hs ht (hsuits.constant (.inr (.inl rfl)))
  · exact genArith_typed he hs ht (hsuits.constant (.inr (.inr rfl)))

/-- An expression that is moved into a variable is read with the type of the variable. -/
theorem genByStrategy_typed (he : e.Sound) (hs : s.WellTyped) (ht : t.Over s.vocabulary) :
    (genByStrategy e t o).Yields Session.Typed s fun a s' => a.Fits s'.vocabulary t := by
  unfold genByStrategy
  refine .get (Yields.bind (Yields.of_onlyDraws Yields.pick) fun picked s₁ _ h₁ => ?_)
  obtain ⟨⟨stream₁, rfl⟩, hpicked⟩ := h₁
  extract_lets strategy
  have hsuits : strategy.Suits t := by
    cases picked with
    | none => exact ⟨by simp [strategy], by simp [strategy]⟩
    | some x => exact Session.suits_of_mem_strategies ht (hpicked x rfl)
  refine Yields.bind (Yields.of_onlyDraws (Yields.onlyIf Yields.chance)) fun hoist s₂ _ h₂ => ?_
  obtain ⟨⟨stream₂, rfl⟩, -⟩ := h₂
  have hs₂ := (hs.atStream stream₁).atStream stream₂
  split
  · refine (genStrategy_typed he hs₂ ht hsuits).bind fun value s₃ h₃ _ => ?_
    obtain ⟨hgrows₃, hs₃⟩ := h₃ hs₂
    have ht₃ : t.Over s₃.vocabulary := hgrows₃.over (s := (s.atStream stream₁).atStream stream₂) ht
    refine Yields.bind (Q := fun _ _ => True) (.modify (Session.typed_withCounts _ _ _ _) trivial)
      fun _ s₄ h₄ _ => ?_
    obtain ⟨hgrows₄, hs₄⟩ := h₄ hs₃
    refine (genVariableDecl_typed he hs₄ fun u hu => ?_).bind fun v s₅ h₅ ⟨hv, hty⟩ => .pure ?_
    · exact Option.some.inj hu ▸ hgrows₄.over ht₃
    · rw [← hty t rfl]
      exact .of_ty? hv rfl
  · exact genStrategy_typed he hs₂ ht hsuits

/-- **An expression is of the type that is asked for**, up to narrowing. -/
theorem genExpr_typed (he : e.Sound) (hs : s.WellTyped) (ht : t.Over s.vocabulary) :
    (genExpr e t o).Yields Session.Typed s fun a s' => a.Fits s'.vocabulary t := by
  unfold genExpr
  refine .get ?_
  extract_lets limit atLimit canSkip o make
  split
  · exact .pure (.of_ty? ht rfl)
  split
  · exact .pure (.of_ty? ht rfl)
  split
  · exact .pure (.of_ty? ht rfl)
  refine Yields.bind (Yields.of_onlyDraws (concretize_typed ht)) fun u s₁ _ h₁ => ?_
  obtain ⟨⟨stream₁, rfl⟩, rfl⟩ := h₁
  have hs₁ := hs.atStream stream₁
  have hmake : ∀ (stream : Stream) (v : Ty), v.Over s.vocabulary → v.isSubtype u →
      (make v).Yields Session.Typed (s.atStream stream) fun a s' => a.Fits s'.vocabulary u := by
    intro stream v hv hsub
    -- What fits the narrowed type fits the type.
    have hfits : ∀ s' : Session, s.Grows s' → s'.WellTyped → ∀ a : Expr,
        a.Fits s'.vocabulary v → a.Fits s'.vocabulary u := by
      intro s' hgrows hs' a ha
      exact ha.of_isSubtype (T := hs'.table) (hgrows.over hv) (hgrows.over ht) hsub
    have hs₂ := hs.atStream stream
    refine Yields.bind (Yields.of_onlyDraws (Yields.onlyIf Yields.chance)) fun reuse s₃ _ h₃ => ?_
    obtain ⟨⟨stream₃, rfl⟩, -⟩ := h₃
    have hs₃ := hs₂.atStream stream₃
    extract_lets generate
    have hgenerate : ∀ (stream' : Stream) (existing : Option Expr),
        (∀ a ∈ existing, a.Fits s.vocabulary v) →
        (generate existing).Yields Session.Typed (s.atStream stream') fun a s' =>
          a.Fits s'.vocabulary u := by
      intro stream' existing hexisting
      have hs₄ := hs.atStream stream'
      unfold generate
      split
      · exact .pure (hfits _ (.atStream s stream') hs₄ _ (hexisting _ rfl))
      · refine (genByStrategy_typed he hs₄ hv).mono fun a s₅ h₅ ha => ?_
        obtain ⟨hgrows₅, hs₅⟩ := h₅ hs₄
        exact hfits s₅ ((Session.Grows.atStream s stream').trans hgrows₅) hs₅ a ha
    split
    · refine .get (Yields.bind (Yields.of_onlyDraws Yields.pick) fun picked s₄ _ h₄ => ?_)
      obtain ⟨⟨stream₄, rfl⟩, hpicked⟩ := h₄
      exact hgenerate stream₄ picked fun a ha => Session.WellTyped.fits_exactReads hv (hpicked a ha)
    · exact .pass (hgenerate stream₃ none fun _ h => by cases h)
  refine Yields.bind (Yields.of_onlyDraws (Yields.onlyIf Yields.chance)) fun narrowed s₂ _ h₂ => ?_
  obtain ⟨⟨stream₂, rfl⟩, -⟩ := h₂
  have hs₂ := hs₁.atStream stream₂
  split
  · refine Yields.bind (Yields.of_onlyDraws (narrow_typed hs₂ ht)) fun v s₃ _ h₃ => ?_
    obtain ⟨⟨stream₃, rfl⟩, hv, hsub⟩ := h₃
    exact hmake stream₃ v hv hsub
  · exact .pass (hmake stream₂ u ht (Ty.isSubtype_refl u))

/-! ## Bodies -/

theorem genSideEffect_typed (he : e.Sound) (hs : s.WellTyped) :
    (genSideEffect e).Yields Session.Typed s fun _ _ => True := by
  unfold genSideEffect
  refine .get (Yields.bind (Yields.of_onlyDraws (selectType_typed hs)) fun t s₁ _ h₁ => ?_)
  obtain ⟨⟨stream, rfl⟩, ht, -⟩ := h₁
  have hs₁ := hs.atStream stream
  refine (he.expr hs₁ ht).bind fun value s₂ h₂ hvalue => ?_
  exact (asStatement_typed he (h₂ hs₁).2 fun u hu => (hvalue u hu).1).bind
    fun _ _ _ _ => .pure trivial

theorem genBlock_typed {result : Option Expr} (he : e.Sound) (hs : s.WellTyped) :
    (genBlock e result).Yields Session.Typed s fun _ _ => True := by
  unfold genBlock
  refine .get (Yields.sizeBetween.bind fun count s₁ h₁ _ => ?_)
  obtain ⟨-, hs₁⟩ := h₁ hs
  refine (Yields.times (G := fun _ _ => True) (fun s₂ h₂ => genSideEffect_typed he (h₂ hs₁).2)
    fun _ _ _ _ _ => trivial).bind fun effects s₂ h₂ _ => ?_
  refine Yields.chance.bind fun looped s₃ h₃ _ => ?_
  have hs₃ := (h₃ (h₂ hs₁).2).2
  extract_lets finish
  split
  · exact (genLoop_typed he hs₃).bind fun _ _ _ _ => .get (.pure trivial)
  · exact .pass (.get (.pure trivial))

theorem genBody_typed (he : e.Sound) (hs : s.WellTyped) (ht : t.Over s.vocabulary) :
    (genBody e t).Yields Session.Typed s fun _ _ => True := by
  unfold genBody
  extract_lets isVoid finish make
  have hfinish : ∀ (s₁ : Session) (result : Option Expr), s₁.WellTyped →
      (finish result).Yields Session.Typed s₁ fun _ _ => True := by
    intro s₁ result hs₁
    refine .get ((Yields.onlyIf Yields.chance).bind fun bare s₂ h₂ _ => ?_)
    split
    · exact .pure trivial
    · exact genBlock_typed he (h₂ hs₁).2
  have hmake : ∀ (s₁ : Session) (u : Ty), s₁.WellTyped → u.Over s₁.vocabulary →
      (make u).Yields Session.Typed s₁ fun _ _ => True := by
    intro s₁ u hs₁ hu
    refine (he.expr hs₁ hu).bind fun value s₂ h₂ hvalue => ?_
    obtain ⟨-, hs₂⟩ := h₂ hs₁
    split
    · refine (asStatement_typed he hs₂ fun u hu => (hvalue u hu).1).bind fun result s₃ h₃ _ => ?_
      exact hfinish s₃ result (h₃ hs₂).2
    · exact .pass (hfinish s₂ _ hs₂)
  split
  · refine Yields.bind (Yields.of_onlyDraws (selectType_typed hs)) fun u s₁ _ h₁ => ?_
    obtain ⟨⟨stream, rfl⟩, hu, -⟩ := h₁
    exact hmake _ u (hs.atStream stream) hu
  · exact .pass (hmake s t hs ht)

end Gen

/-! ## The engine -/

/-- **Every layer of the engine gives what is asked for.** -/
theorem Engine.layers_sound (n : Nat) : (Engine.layers n).Sound := by
  induction n with
  | zero => exact ⟨fun _ _ => .throw, fun _ _ => .throw, fun _ _ => .throw⟩
  | succ n ih =>
    exact ⟨fun hs ht => Gen.genExpr_typed ih hs ht, fun hs ht => Gen.genBody_typed ih hs ht,
      fun hs ht => Gen.genNew_typed ih hs ht⟩

end ProgramGen

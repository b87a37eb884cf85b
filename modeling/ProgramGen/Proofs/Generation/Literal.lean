import ProgramGen.Proofs.Generation.Variables
import ProgramGen.Synthesis.Literal

/-!
# Literals and operators

A type with literals is answered by one, and an array by a few elements of its type. Operators are
asked for where there is room for operands, and each of them finds its operands.
-/

namespace ProgramGen

open Session

variable {s s' : Session} {t u lhs rhs : Ty} {e : Engine} {o : ExprOpts} {P : Permit} {k : BuiltinKind}
variable {l : Language} {c : TypeCtor} {args : List Ty}

namespace Gen

/-! ## Constants -/

theorem integerText_ensures {f : IntFormat} {lo hi : Int} :
    (integerText f lo hi).Ensures OnlyDraws s fun _ _ => True :=
  Ensures.draw.bind fun _ s₁ _ _ => .pure (refl_of OnlyDraws s₁) trivial

theorem letter_ensures : letter.Ensures OnlyDraws s fun _ _ => True :=
  Ensures.draw.bind fun _ s₁ _ _ => .pure (refl_of OnlyDraws s₁) trivial

theorem decimalText_ensures : decimalText.Ensures OnlyDraws s fun _ _ => True :=
  integerText_ensures.bind fun _ _ _ _ => integerText_ensures.bind fun _ s₂ _ _ =>
    .pure (refl_of OnlyDraws s₂) trivial

/-- Only the top type, the bottom type and the type without values have no literals. -/
theorem literalText_ensures : (literalText l k).Ensures OnlyDraws s fun text _ =>
    text = none → k = .any ∨ k = .nothing ∨ k = .void := by
  have hsome : ∀ (s : Session) (text : String), (pure (some text) : Gen (Option String)).Ensures OnlyDraws s
      fun text _ => text = none → k = .any ∨ k = .nothing ∨ k = .void :=
    fun s _ => .pure (refl_of OnlyDraws s) nofun
  cases k with
  | any => exact .pure (refl_of OnlyDraws s) fun _ => .inl rfl
  | nothing => exact .pure (refl_of OnlyDraws s) fun _ => .inr (.inl rfl)
  | void => exact .pure (refl_of OnlyDraws s) fun _ => .inr (.inr rfl)
  | float | double => exact decimalText_ensures.bind fun _ s₁ _ _ => hsome s₁ _
  | char => exact letter_ensures.bind fun _ s₁ _ _ => hsome s₁ _
  | boolean => exact Ensures.coin.bind fun _ s₁ _ _ => hsome s₁ _
  | string =>
    refine Ensures.draw.bind fun _ s₁ _ _ => ?_
    refine (Ensures.times (G := fun _ _ => True) (refl_of OnlyDraws s₁) (fun _ _ => letter_ensures)
      fun _ _ _ _ _ => trivial).bind fun _ s₂ _ _ => hsome s₂ _
  | _ => exact integerText_ensures.bind fun _ s₁ _ _ => hsome s₁ _

/-- **An array of leaves.** -/
theorem genArray_ensures (hs : s.Sound) (ht : (Ty.applied c args).Plain) (hc : c.builtin)
    (hcollection : IsCollection c.name) (he : s.ServedGround e 1) (hP : P.Covers s.frame.ns) :
    (genArray e (.applied c args)).Ensures (Step P) s fun a s' =>
      s'.Answers s.frame.depth (.applied c args) a := by
  have hground : ∀ a ∈ args, a.isGround := by
    cases ht with
    | applied _ _ _ _ _ _ _ _ hground => exact hground hc hcollection
  have helems : ∀ elem : Ty, elem.Plain → elem.isGround → ∀ s₁, s.Step P s₁ →
      (do let count ← rand (Rand.uniform .i32 0 3)
          let elems ← nested 1 (times count.toNat (e.expr elem .leaves))
          pure (Expr.array (c.apply [elem]) elems)).Ensures (Step P) s₁ fun a s' =>
        s'.Answers s.frame.depth (.applied c args) a := by
    intro elem helem helemGround s₁ h₁
    have hunapplied : elem.isApplied = false := by cases elem <;> first | rfl | cases helemGround
    refine (Ensures.draw.drawStep h₁.sound).bind fun count s₂ h₂ _ => ?_
    have hstep := h₁.trans h₂
    refine (nested_ensures (Q := fun elems s' => ∀ a ∈ elems, s'.Answers (s.frame.depth + 1) elem a)
      h₂.sound fun s₀ heq hs₀ => ?_).bind fun elems s₃ h₃ helems => ?_
    · have he₀ : s₀.ServedGround e 0 := by
        rw [heq]
        exact ServedGround.withFrame (he.step hstep) le_rfl
      refine (Ensures.times (R := Step P) (G := fun a s' => s'.Answers (s.frame.depth + 1) elem a)
        (.refl hs₀) (fun s' h' => ?_) fun a s₁ s₂ h ha => ha.mono h).mono fun elems s' h' h a ha => ?_
      · have hframe : s'.frame = { s.frame with depth := s.frame.depth + 1 } := by
          rw [h'.frame, heq, ← hstep.frame]
        have hdepth : s'.frame.depth = s.frame.depth + 1 := congrArg Frame.depth hframe
        rw [← hdepth]
        exact ServedGround.expr (he₀.step h') h'.sound helem helemGround (by rw [hframe]; exact hP)
      · exact (h a ha).of_nested (h'.frame.trans (by rw [heq]))
    · have hplain : (c.apply [elem]).Plain := by
        obtain ⟨l, hl⟩ := ht.isPlain.provided hc
        exact ht.isPlain.applied (by simpa using helem) (hl.length_params hcollection).symm fun _ _ => by
          simpa using helemGround
      refine .pure (.refl h₃.sound) (.node rfl rfl hplain rfl (List.forall_mem_singleton.mpr (.inl hplain))
        (fun _ _ => trivial) (fun _ _ => trivial) ?_)
      · intro a ha
        refine ((helems a ha).value helem.isVoid).deeper ?_
        have := exprDepth_element (L := s₃.maxDepth) (t := .applied c args) rfl hunapplied
          (Nat.lt_add_one s.frame.depth)
        omega
  unfold genArray
  refine .get ?_
  cases args with
  | nil => exact .pass (helems _ (s.language.plain_builtin (k := .any) (by decide)) rfl s (.refl hs))
  | cons a args =>
    refine ((concretize_ensures (.inl (ht.arg List.mem_cons_self))).drawStep hs).bind fun u s₁ h₁ hu => ?_
    obtain ⟨-, rfl⟩ := hu
    exact helems u (ht.arg List.mem_cons_self) (hground u List.mem_cons_self) s₁ h₁

/-- **A type with literals gets one.** -/
theorem genConstant_ensures (hs : s.Sound) (ht : t.Plain) (hconstant : s.hasConstant t)
    (he : t.isApplied → s.ServedGround e 1) (hP : P.Covers s.frame.ns) :
    (genConstant e t).Ensures (Step P) s fun a s' => s'.Answers s.frame.depth t a := by
  unfold genConstant
  cases t with
  | applied c args =>
    obtain ⟨hc, hname⟩ : c.builtin ∧ c.name = s.language.arrayName := by
      simpa [Session.hasConstant] using hconstant
    exact genArray_ensures hs ht hc ⟨s.language, .inl hname⟩ (he rfl) hP
  | builtin n k l b ss =>
    refine .get ((literalText_ensures.drawStep hs).bind fun text s₁ h₁ htext => ?_)
    cases text with
    | some text =>
      exact .pure (.refl h₁.sound) (.node ht.isVoid rfl ht rfl (List.forall_mem_singleton.mpr (.inl ht))
        (fun _ _ => trivial) (fun _ _ => trivial) fun _ h => absurd h List.not_mem_nil)
    | none =>
      exfalso
      rcases htext.2 rfl with rfl | rfl | rfl <;> cases hconstant
  | _ => cases hconstant

/-! ## Operators -/

/-- Operands are asked for one level deeper. -/
theorem genOperands_ensures (hs : s.Sound) (hlhs : lhs.Plain) (hrhs : rhs.Plain) (he : s.Served e 1)
    (hdepth : s.frame.depth ≤ 2 * s.maxDepth) (hP : P.Covers s.frame.ns) :
    (genOperands e lhs rhs o).Ensures (Step P) s fun x s' =>
      ∀ a ∈ [x.1, x.2], s'.Operand s.frame.depth t a := by
  unfold genOperands
  refine nested_ensures hs fun s₀ heq hs₀ => ?_
  have he₀ : s₀.Served e 0 := by
    rw [heq]
    exact he.withFrame le_rfl
  have hframe : s₀.frame.depth = s.frame.depth + 1 := by rw [heq]
  have hP₀ : P.Covers s₀.frame.ns := by rw [heq]; exact hP
  refine (he₀.expr hs₀ (.inl hlhs) hP₀).bind fun a s₁ h₁ ha => ?_
  refine ((he₀.step h₁).expr h₁.sound (.inl hrhs) (h₁.frame ▸ hP₀)).bind fun b s₂ h₂ hb => ?_
  rw [h₁.frame] at hb
  have hmax : s₂.maxDepth = s.maxDepth := by
    unfold maxDepth
    rw [h₂.config, h₁.config, heq]
  have hpart : ∀ {u a}, u.Plain → s₂.Answers s₀.frame.depth u a →
      ({ s₂ with frame := s.frame } : Session).Operand s.frame.depth t a := fun hu ha =>
    (ha.of_nested (h₂.frame.trans (h₁.frame.trans (by rw [heq])))).operand hu.isVoid (hmax ▸ hdepth)
      (by omega)
  exact .pure (.refl h₂.sound) (by simpa using ⟨hpart hlhs (ha.mono h₂), hpart hrhs hb⟩)

section Operators

variable (hs : s.Sound) (ht : t.Plain) (he : s.Served e 1) (hdepth : s.frame.depth ≤ 2 * s.maxDepth)
variable (hP : P.Covers s.frame.ns)
include hs ht he hdepth hP

omit hs in
/-- An operator on operands of given types. -/
theorem genOperands_bind {f : Expr × Expr → Expr} (hlhs : lhs.Plain) (hrhs : rhs.Plain) {s₁ : Session}
    (h₁ : s.Step P s₁) (hty : ∀ x, (f x).ty? = some t) (hflat : ∀ x, (f x).isFlat)
    (htypes : ∀ x, (f x).types = [t]) (haccess : ∀ x c v, (f x).Accesses c v)
    (hconstruct : ∀ x c l, (f x).Constructs c l) (hchildren : ∀ x, (f x).children = [x.1, x.2])
    (hread : ∀ x c v, (f x).Reads c v := by intros; trivial) :
    (do let x ← genOperands e lhs rhs o
        pure (f x)).Ensures (Step P) s₁ fun a s' => s'.Answers s.frame.depth t a := by
  have hmax : s₁.maxDepth = s.maxDepth := congrArg (·.limits.maxDepth) h₁.config
  refine (genOperands_ensures (t := t) h₁.sound hlhs hrhs (he.step h₁) (by rw [h₁.frame, hmax]; exact hdepth)
    (h₁.frame ▸ hP)).bind fun x s₂ h₂ hx => .pure (.refl h₂.sound) ?_
  rw [h₁.frame] at hx
  refine .node ht.isVoid (hty x) ht (hflat x) ?_ (haccess x) (hconstruct x) (by rw [hchildren]; exact hx) (hread x)
  rw [htypes]
  exact List.forall_mem_singleton.mpr (.inl ht)

theorem genLogical_ensures :
    (genLogical e t).Ensures (Step P) s fun a s' => s'.Answers s.frame.depth t a := by
  unfold genLogical
  refine (Ensures.coin.drawStep hs).bind fun op s₁ h₁ _ => ?_
  exact genOperands_bind (f := fun x => .logical _ x.1 x.2 t) ht he hdepth hP ht ht h₁ (fun _ => rfl)
    (fun _ => rfl) (fun _ => rfl) (fun _ _ _ => trivial) (fun _ _ _ => trivial) fun _ => rfl

theorem genEquality_ensures :
    (genEquality e t).Ensures (Step P) s fun a s' => s'.Answers s.frame.depth t a := by
  unfold genEquality
  refine ((selectType_chosen hs rfl).drawStep hs).bind fun operand s₁ h₁ hoperand => ?_
  refine (Ensures.coin.drawStep h₁.sound).bind fun op s₂ h₂ _ => ?_
  exact genOperands_bind (f := fun x => .equality _ x.1 x.2 t) ht he hdepth hP hoperand.2.plain
    hoperand.2.plain (h₁.trans h₂) (fun _ => rfl) (fun _ => rfl) (fun _ => rfl) (fun _ _ _ => trivial)
    (fun _ _ _ => trivial) fun _ => rfl

theorem genComparison_ensures :
    (genComparison e t).Ensures (Step P) s fun a s' => s'.Answers s.frame.depth t a := by
  have hnumber : ∀ u ∈ s.language.numberTypes, u.Plain := by
    intro u hu
    obtain ⟨k, hk, rfl⟩ := List.mem_map.mp hu
    exact s.language.plain_builtin (by rintro rfl; simp at hk)
  unfold genComparison
  refine .get ?_
  extract_lets l others
  have hothers : ∀ u ∈ others, u.Plain := by
    intro u hu
    have hu : u ∈ [l.builtin .char, l.stringType] := by
      revert hu
      unfold others
      cases l <;> simp +contextual
    rcases List.mem_cons.mp hu with rfl | hu
    · exact l.plain_builtin (by decide)
    · rw [List.mem_singleton.mp hu]
      exact l.plain_builtin (by decide)
  refine (Ensures.pick.drawStep hs).bind fun chosen s₁ h₁ hpick => ?_
  obtain ⟨-, hnone, hchosen⟩ := hpick
  split
  · exact absurd (hnone rfl) (List.append_ne_nil_of_left_ne_nil (List.cons_ne_nil _ _) _)
  · rename_i lhs
    have hlhs : lhs.Plain := (List.mem_append.mp (hchosen lhs rfl)).elim (hnumber lhs) (hothers lhs)
    have hrest : ∀ rhs : Ty, rhs.Plain → ∀ s₂, s₁.Step P s₂ →
        (do let op := (← pick CmpOp.all).getD .lt
            let x ← genOperands e lhs rhs {}
            pure (Expr.comparison op x.1 x.2 t)).Ensures (Step P) s₂ fun a s' =>
          s'.Answers s.frame.depth t a := by
      intro rhs hrhs s₂ h₂
      refine (Ensures.pick.drawStep h₂.sound).bind fun op s₃ h₃ _ => ?_
      exact genOperands_bind (f := fun x => .comparison _ x.1 x.2 t) ht he hdepth hP hlhs hrhs
        (h₁.trans (h₂.trans h₃)) (fun _ => rfl) (fun _ => rfl) (fun _ => rfl)
        (fun _ _ _ => trivial) (fun _ _ _ => trivial) fun _ => rfl
    split
    · refine (Ensures.pick.drawStep h₁.sound).bind fun number s₂ h₂ hpick => ?_
      refine .pass (hrest _ ?_ s₂ h₂)
      cases number with
      | none => exact hlhs
      | some u => exact hnumber u (hpick.2.2 u rfl)
    · exact .pass (hrest lhs hlhs s₁ (.refl h₁.sound))

theorem genArith_ensures (harith : (s.language.arithOperands t).isEmpty = false) :
    (genArith e t).Ensures (Step P) s fun a s' => s'.Answers s.frame.depth t a := by
  unfold genArith
  refine .get ((Ensures.pick.drawStep hs).bind fun chosen s₁ h₁ hpick => ?_)
  obtain ⟨-, hnone, hchosen⟩ := hpick
  split
  · rw [hnone rfl] at harith
    cases harith
  · rename_i operand ops
    have hoperand : operand.Plain := by
      obtain ⟨u, hu, hops⟩ := List.mem_filterMap.mp (hchosen _ rfl)
      have : u = operand := by
        split at hops
        · cases hops
        · exact (Prod.mk.inj (Option.some.inj hops)).1
      subst this
      rcases List.mem_append.mp hu with hu | hu
      · obtain ⟨k, hk, rfl⟩ := List.mem_map.mp hu
        exact s.language.plain_builtin (by rintro rfl; simp at hk)
      · rw [List.mem_singleton.mp hu]
        exact s.language.plain_builtin (by decide)
    refine (Ensures.pick.drawStep h₁.sound).bind fun op s₂ h₂ _ => ?_
    extract_lets
    exact genOperands_bind (f := fun x => .arith _ x.1 x.2 t _) ht he hdepth hP hoperand hoperand
      (h₁.trans h₂) (fun _ => rfl) (fun _ => rfl) (fun _ => rfl) (fun _ _ _ => trivial)
      (fun _ _ _ => trivial) fun _ => rfl

end Operators

end Gen

end ProgramGen

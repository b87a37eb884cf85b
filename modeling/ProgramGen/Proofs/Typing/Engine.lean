import ProgramGen.Proofs.Typing.Choice
import ProgramGen.Synthesis.Variable

/-!
# Expressions of a requested type

What is asked of the entries of the generator: the value of an expression is assignable to the
requested type. There is one exception. A call of a method on a class that is declared for the
purpose has the requested type only if the variables of that type can be told apart by the letters
of the class; where they cannot, its type unifies with the requested one and no more is known.

Variables are the first part of the generator that is judged by this: what is read fits, and what is
declared has the type that it was asked for.
-/

namespace ProgramGen

variable {V : Vocabulary} {s s' : Session} {t u : Ty} {a : Expr} {o : ExprOpts} {d : Decl}

/-! ## What fits -/

/-- The variables of the type can be given a letter each, and told apart by their names. -/
def Ty.Nameable (t : Ty) : Prop :=
  t.typeVars.length ≤ capitalLetters.length ∧ (t.typeVars.map (·.name)).Nodup

/-- A method call of type `u` for a request of type `t`, where the type that the request was
narrowed to has variables that the class of the method cannot tell apart. -/
def Expr.Misses (V : Vocabulary) (t u : Ty) (a : Expr) : Prop :=
  (∃ receiver name typeArgs args ofValue, a = .call (some receiver) name typeArgs args u ofValue) ∧
  ∃ t' : Ty, t'.Over V ∧ t'.isSubtype t ∧ ¬t'.Nameable ∧ (t'.unify? u).isSome

/-- The value of the expression, if it has one, is assignable to the type. -/
def Expr.Fits (V : Vocabulary) (t : Ty) (a : Expr) : Prop :=
  ∀ u, a.ty? = some u → u.Over V ∧ (u.isAssignable t ∨ a.Misses V t u)

namespace Expr.Fits

theorem of_ty? (ht : t.Over V) (h : a.ty? = some t) : a.Fits V t := by
  intro u hu
  rw [h, Option.some.injEq] at hu
  subst hu
  exact ⟨ht, .inl (Ty.isAssignable_refl t)⟩

theorem of_none (h : a.ty? = none) : a.Fits V t := by
  intro u hu
  rw [h] at hu
  cases hu

theorem of_assignable (hu : u.Over V) (h : a.ty? = some u) (hassign : u.isAssignable t) :
    a.Fits V t := by
  intro u' hu'
  rw [h, Option.some.injEq] at hu'
  subst hu'
  exact ⟨hu, .inl hassign⟩

/-- **What fits a subtype fits.** -/
theorem of_isSubtype {T : ClassTable} (h : a.Fits T.toVocabulary u) (hu : u.Over T.toVocabulary)
    (ht : t.Over T.toVocabulary) (hsub : u.isSubtype t) : a.Fits T.toVocabulary t := by
  intro v hv
  obtain ⟨hover, h⟩ := h v hv
  refine ⟨hover, ?_⟩
  rcases h with h | ⟨hcall, t', ht', hsub', hrest⟩
  · exact .inl (Ty.isAssignable_trans T hover hu ht h hsub)
  · exact .inr ⟨hcall, t', ht', Ty.isSubtype_trans T ht' hu ht hsub' hsub, hrest⟩

end Expr.Fits

/-- The entries of the generator keep sessions well typed and give what is asked for. -/
structure Engine.Sound (e : Engine) : Prop where
  expr : ∀ {s : Session} {t : Ty} {o : ExprOpts}, s.WellTyped → t.Over s.vocabulary →
    (e.expr t o).Yields Session.Typed s fun a s' => a.Fits s'.vocabulary t
  body : ∀ {s : Session} {t : Ty}, s.WellTyped → t.Over s.vocabulary →
    (e.body t).Yields Session.Typed s fun _ _ => True
  new : ∀ {s : Session} {t : Ty} {sam : Bool}, s.WellTyped → t.Over s.vocabulary →
    (e.new t sam).Yields Session.Typed s fun a s' => a.Fits s'.vocabulary t

/-! ## Reading -/

/-- The types of visible variables are over the session. -/
theorem Session.WellTyped.readable_over (hs : s.WellTyped) (hd : d ∈ s.readableVars)
    (ht : d.varType? = some t) : t.Over s.vocabulary := by
  obtain ⟨⟨m, d'⟩, hmem, h⟩ := List.mem_filterMap.mp hd
  obtain ⟨-, h⟩ := Option.ite_none_right_eq_some.mp h
  cases h
  obtain ⟨-, hdecl, -⟩ := Context.mem_scopedVars hmem
  refine hs.over_types m d hdecl t ?_
  cases d <;> cases ht <;> exact List.mem_singleton_self _

/-- A variable that is read in place of a value of type `t` fits. -/
theorem Session.WellTyped.fits_assignableReads (hs : s.WellTyped) (h : a ∈ s.assignableReads t) :
    a.Fits s.vocabulary t := by
  obtain ⟨d, hd, h⟩ := List.mem_filterMap.mp h
  split at h
  · obtain ⟨hassign, h⟩ := Option.ite_none_right_eq_some.mp h
    cases h
    exact .of_assignable (hs.readable_over hd ‹_›) rfl hassign
  · cases h

/-- A variable of just the type `t`. -/
theorem Session.WellTyped.fits_exactReads (ht : t.Over s.vocabulary) (h : a ∈ s.exactReads t) :
    a.Fits s.vocabulary t := by
  obtain ⟨d, hd, h⟩ := List.mem_filterMap.mp h
  split at h
  · obtain ⟨-, h⟩ := Option.ite_none_right_eq_some.mp h
    cases h
    exact .of_ty? ht rfl
  · obtain ⟨-, h⟩ := Option.ite_none_right_eq_some.mp h
    cases h
    exact .of_ty? ht rfl
  · cases h

namespace Gen

variable {e : Engine}

theorem genVariable_typed (he : e.Sound) (hs : s.WellTyped) (ht : t.Over s.vocabulary) :
    (genVariable e t o).Yields Session.Typed s fun a s' => a.Fits s'.vocabulary t := by
  unfold genVariable
  refine .get (Yields.bind (Yields.of_onlyDraws Yields.pick) fun chosen s₁ _ h₁ => ?_)
  obtain ⟨⟨stream, rfl⟩, hchosen⟩ := h₁
  split
  · exact .pure (hs.fits_assignableReads (hchosen _ rfl))
  · exact he.expr (hs.atStream stream) ht

/-! ## Declarations -/

/-- **A variable is declared with the type that is asked for.** -/
theorem genVariableDecl_typed {type : Option Ty} {onlyLeaves : Bool} {init : Option Expr}
    (he : e.Sound) (hs : s.WellTyped) (htype : ∀ t ∈ type, t.Over s.vocabulary) :
    (genVariableDecl e type onlyLeaves init).Yields Session.Typed s fun v s' =>
      v.ty.Over s'.vocabulary ∧ ∀ t ∈ type, v.ty = t := by
  unfold genVariableDecl
  extract_lets declare ofType
  have hdeclare : ∀ (s' : Session) (t : Ty), s'.WellTyped → t.Over s'.vocabulary →
      (declare t).Yields Session.Typed s' fun v s'' => v.ty.Over s''.vocabulary ∧ v.ty = t := by
    intro s' t hs' ht
    refine .get ?_
    extract_lets ns register
    have hregister : ∀ (s₁ : Session) (value : Expr), s₁.WellTyped → t.Over s₁.vocabulary →
        (register value).Yields Session.Typed s₁ fun v s₂ => v.ty.Over s₂.vocabulary ∧ v.ty = t := by
      intro s₁ value hs₁ ht₁
      refine Yields.coin.bind fun isFinal s₂ h₂ _ => Yields.coin.bind fun tossed s₃ h₃ _ => ?_
      extract_lets inferred
      obtain ⟨hgrows₂, hs₂⟩ := h₂ hs₁
      obtain ⟨hgrows₃, hs₃⟩ := h₃ hs₂
      refine (word_typed hs₃).bind fun name s₄ h₄ _ => ?_
      extract_lets decl
      have ht₄ := (h₄ hs₃).1.over (hgrows₃.over (hgrows₂.over ht₁))
      refine (addVar_typed fun u hu => ?_).bind fun _ s₅ h₅ _ => ?_
      · rw [List.mem_singleton.mp hu]
        exact ht₄
      · exact .pure ⟨(h₅ (h₄ hs₃).2).1.over ht₄, rfl⟩
    split
    · exact .pass (hregister s' _ hs' ht)
    · refine (inFrame_typed (Q := fun _ _ => True) hs' hs'.rooted fun s₁ _ hs₁ hv => ?_).bind
        fun value s₁ h₁ _ => hregister s₁ value (h₁ hs').2 ((h₁ hs').1.over ht)
      exact (he.expr hs₁ (hv ▸ ht)).mono fun _ _ _ _ => trivial
  have hofType : ∀ (s' : Session) (t : Ty), s'.WellTyped → t.Over s'.vocabulary →
      (ofType t).Yields Session.Typed s' fun v s'' => v.ty.Over s''.vocabulary ∧ v.ty = t := by
    intro s' t hs' ht
    unfold ofType
    rw [ht.isWildcard]
    exact .pass (hdeclare s' t hs' ht)
  split
  · rename_i t
    refine .pass ((hofType s t hs (htype t rfl)).mono fun v s' _ hv => ⟨hv.1, fun u hu => ?_⟩)
    cases hu
    exact hv.2
  · refine (Yields.of_onlyDraws (selectType_typed hs)).bind fun t s₁ _ h₁ => ?_
    obtain ⟨⟨stream, rfl⟩, ht, -⟩ := h₁
    exact (hofType _ t (hs.atStream stream) ht).mono fun v s' _ hv => ⟨hv.1, by simp⟩

theorem makeMutable_typed {name : String} (hs : s.WellTyped) :
    (makeMutable name).Yields Session.Typed s fun _ _ => True := by
  unfold makeMutable
  refine .get (.modifyContext (Session.typed_modify (fun d => ?_) fun d hd _ t ht => ?_) trivial)
  · cases d <;> rfl
  · refine hs.over_types _ d hd t ?_
    cases d <;> exact ht

/-- An expression used as a statement. -/
theorem asStatement_typed (he : e.Sound) (hs : s.WellTyped)
    (ha : ∀ u, a.ty? = some u → u.Over s.vocabulary) :
    (asStatement e a).Yields Session.Typed s fun _ _ => True := by
  unfold asStatement
  split
  iterate 6 exact .pure trivial
  split
  · exact .pure trivial
  · rename_i t ht
    split
    · exact .pure trivial
    · refine (genVariableDecl_typed he hs ?_).bind fun _ _ _ _ => .pure trivial
      intro u hu
      cases hu
      exact ha t ht

end Gen

end ProgramGen

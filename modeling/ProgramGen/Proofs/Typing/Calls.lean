import ProgramGen.Proofs.Typing.Values
import ProgramGen.Synthesis.Call

/-!
# Typed calls

The result of a call, seen through the receiver and with the type parameters bound, is assignable to
what is asked for. Callees that can be called from where the generator is are bound until they fit;
one that is declared for the purpose returns the type itself, and a method on a new class returns it
as far as the letters of the class can tell its variables apart.
-/

namespace ProgramGen

variable {s s' : Session} {t u : Ty} {e : Engine} {m view : Subst} {c : ClassDecl} {f : FuncDecl}

/-! ## Callees -/

/-- What is called, and what its type parameters stand for, is over the vocabulary. -/
structure Callee.Over (V : Vocabulary) (c : Callee) : Prop where
  func : ∀ t ∈ c.func.types, t.Over V
  view : c.view.Over V

theorem Callee.Over.mono {V V' : Vocabulary} {c : Callee} (h : c.Over V)
    (hV : ∀ t : Ty, t.Over V → t.Over V') : c.Over V' :=
  ⟨fun t ht => hV t (h.func t ht), h.view.mono hV⟩

/-- What the call returns. -/
def Callee.result (c : Callee) : Ty := c.func.ret.subst c.view

theorem Callee.Over.result {V : Vocabulary} {c : Callee} (h : c.Over V) : c.result.Over V :=
  h.view.subst (h.func _ List.mem_cons_self)

/-- **A result that fits is assignable**: there is one type without values. -/
theorem Session.isAssignable_of_returnFits (hu : u.Over s.vocabulary) (ht : t.Over s.vocabulary)
    (h : returnFits u t) : u.isAssignable t := by
  unfold returnFits at h
  split at h
  · obtain ⟨htvoid, huvoid⟩ := Bool.and_eq_true_iff.mp h
    have heq : ∀ v : Ty, v.Over s.vocabulary → v.isVoid → v = s.language.voidType := fun v hv =>
      hv.eq_voidType fun _ h => h
    rw [heq u hu huvoid, heq t ht htvoid]
    exact Ty.isAssignable_refl _
  · exact h

/-- The methods of a builtin type are over the session. -/
theorem Session.func_over_classOf? (hc : s.language.classOf? t = some c) (hf : f ∈ c.funcs) :
    ∀ u ∈ f.types, u.Over s.vocabulary := by
  cases t with
  | builtin n k l p ss =>
    cases hc
    obtain ⟨b, -, rfl⟩ := List.mem_map.mp hf
    intro u hu
    simp only [FuncDecl.types, FuncDecl.paramTypes, List.map_nil, List.append_nil, List.mem_cons,
      List.map_map, List.mem_map] at hu
    rcases hu with rfl | ⟨x, -, rfl⟩
    · exact s.over_builtin _
    · exact s.over_builtin _
  | _ => cases hc

theorem Session.WellTyped.func_over_anyReceiver? (hs : s.WellTyped) (ht : t.Over s.vocabulary)
    (h : s.anyReceiver? t = some (c, m)) (hf : f ∈ c.funcs) :
    (∀ u ∈ f.types, u.Over s.vocabulary) ∧ m.Over s.vocabulary := by
  unfold anyReceiver? at h
  split at h
  · cases h
    obtain ⟨hc, hm⟩ := mem_of_receiver? ht ‹_›
    exact ⟨hs.func_over hc hf, hm⟩
  · obtain ⟨d, hd, hx⟩ := Option.map_eq_some_iff.mp h
    cases hx
    exact ⟨func_over_classOf? hd hf, .empty⟩

/-- **What can be called from here is over the session.** -/
theorem Session.WellTyped.visibleFuncs_over (hs : s.WellTyped) {x : FuncDecl × Option Expr × Subst}
    (hx : x ∈ s.visibleFuncs ++ s.receiverFuncs) :
    (∀ u ∈ x.1.types, u.Over s.vocabulary) ∧ x.2.2.Over s.vocabulary := by
  rcases List.mem_append.mp hx with hx | hx
  · obtain ⟨g, hg, h⟩ := List.mem_filterMap.mp hx
    have hover : ∀ u ∈ g.types, u.Over s.vocabulary := by
      obtain ⟨ns, hdecl⟩ := Context.mem_funcs hg
      exact hs.over_types ns (.func g) hdecl
    split at h
    · cases h
    · split at h
      · split at h
        · obtain ⟨-, h⟩ := Option.ite_none_left_eq_some.mp h
          cases h
          exact ⟨hover, .empty⟩
        · cases h
      · cases h
        exact ⟨hover, .empty⟩
  · obtain ⟨d, hd, h⟩ := List.mem_flatMap.mp hx
    split at h
    · cases h
    · rename_i t ht
      split at h
      · cases h
      · rename_i c view hreceiver
        obtain ⟨g, hg, rfl⟩ := List.mem_map.mp h
        exact hs.func_over_anyReceiver? (hs.readable_over hd ht) hreceiver hg

/-- The members of a receiver are seen with its arguments. -/
theorem Session.eq_argMap_of_receiver? (h : s.receiver? t = some (c, m)) : m = t.argMap := by
  unfold Session.receiver? at h
  split at h
  · obtain ⟨d, -, hx⟩ := Option.map_eq_some_iff.mp h
    cases hx
    rfl
  · split at h
    · cases h
    · obtain ⟨d, -, hx⟩ := Option.map_eq_some_iff.mp h
      cases hx
      rfl
  · cases h

namespace Gen

/-! ## Arguments -/

/-- The arguments of a call. -/
theorem genArgs_typed {ts : List Ty} (he : e.Sound) (hs : s.WellTyped)
    (hts : ∀ t ∈ ts, t.Over s.vocabulary) :
    (nested 1 (ts.mapM (genArg e))).Yields Session.Typed s fun _ _ => True := by
  refine nested_typed hs fun s₁ hs₁ hv => ?_
  refine (Yields.mapM (G := fun _ _ _ => True) (fun t ht s₂ h₂ => ?_) fun _ _ _ _ _ _ => trivial).mono
    fun _ _ _ _ => trivial
  obtain ⟨hgrows, hs₂⟩ := h₂ hs₁
  exact (he.expr hs₂ (hgrows.over (hv ▸ hts t ht))).mono fun _ _ _ _ => trivial

/-- A call of a variable of function type. -/
theorem genRefCall_typed (he : e.Sound) (hs : s.WellTyped) :
    (genRefCall e t).Yields Session.Typed s fun o s' => ∀ a ∈ o, a.Fits s'.vocabulary t := by
  unfold genRefCall
  refine .get (Yields.bind (Yields.of_onlyDraws Yields.pick) fun picked s₁ _ h₁ => ?_)
  obtain ⟨⟨stream, rfl⟩, hpicked⟩ := h₁
  split
  · exact .pure nofun
  rename_i name params ret
  obtain ⟨d, hd, h⟩ := List.mem_filterMap.mp (hpicked _ rfl)
  split at h
  · rename_i hsignature
    obtain ⟨hassign, h⟩ := Option.ite_none_right_eq_some.mp h
    cases h
    obtain ⟨v, hv, hparts⟩ := Option.bind_eq_some_iff.mp hsignature
    obtain ⟨hparams, hret⟩ := (hs.readable_over hd hv).functionSignature? hparts
    have hs₁ := hs.atStream stream
    refine (genArgs_typed he hs₁ hparams).bind fun args s₂ h₂ _ => .pure fun a ha => ?_
    cases ha
    exact .of_assignable ((h₂ hs₁).1.over hret) rfl hassign
  · cases h

/-- A call of what is bound returns its result. -/
theorem buildCall_typed {c : Callee} (he : e.Sound) (hs : s.WellTyped) (hc : c.Over s.vocabulary) :
    (buildCall e c).Yields Session.Typed s fun a _ => ∃ typeArgs args,
      a = .call c.receiver c.func.name typeArgs args c.result (c.func.kind == .nested) := by
  unfold buildCall
  refine .get ?_
  extract_lets l params typeArgs
  refine Yields.bind (Q := fun _ _ => True) ?_ fun args s₁ _ _ => .pure ⟨typeArgs, args, rfl⟩
  refine nested_typed hs fun s₁ hs₁ hv => ?_
  refine (Yields.mapM (G := fun _ _ _ => True) (fun p hp s₂ h₂ => ?_) fun _ _ _ _ _ _ => trivial).mono
    fun _ _ _ _ => trivial
  obtain ⟨hgrows, hs₂⟩ := h₂ hs₁
  have hp : p.ty.Over s.vocabulary := hc.func _ (List.mem_append_left _
    (List.mem_cons_of_mem _ (List.mem_map_of_mem (List.mem_of_mem_filter hp))))
  exact (he.expr hs₂ (hgrows.over (hv ▸ hc.view.subst hp))).mono fun _ _ _ _ => trivial

/-- A call of a callee whose result fits. -/
theorem buildCall_fits {c : Callee} (he : e.Sound) (hs : s.WellTyped) (hc : c.Over s.vocabulary)
    (hassign : c.result.isAssignable t) :
    (buildCall e c).Yields Session.Typed s fun a s' => a.Fits s'.vocabulary t := by
  refine (buildCall_typed he hs hc).mono fun a s₁ h₁ ⟨typeArgs, args, ha⟩ => ?_
  exact .of_assignable ((h₁ hs).1.over hc.result) (ha ▸ rfl) hassign

/-! ## Callees in scope -/

/-- **A function is bound so that its result fits.** -/
theorem bindCallee_typed (hs : s.WellTyped) (hf : ∀ u ∈ f.types, u.Over s.vocabulary)
    (hview : view.Over s.vocabulary) (ht : t.Over s.vocabulary) :
    (bindCallee f view t).Yields Session.OnlyDraws s fun o _ => ∀ m ∈ o, m.Over s.vocabulary ∧
      returnFits (f.ret.subst m) t := by
  unfold bindCallee
  extract_lets ret fixed
  have hret : ret.Over s.vocabulary := hview.subst (hf _ List.mem_cons_self)
  split
  · refine .pure fun m hm => ?_
    obtain ⟨hfits, hm⟩ := Option.ite_none_right_eq_some.mp (Option.mem_def.mp hm)
    cases hm
    exact ⟨hview, hfits⟩
  · have hfixed : fixed.Over s.vocabulary := by
      show Subst.Over s.vocabulary (if _ then _ else _)
      split
      · split
        · exact hview.insertMissing (ht.unify? hret ‹_›)
        · exact hview
      · exact hview
    refine (candidateTypes_typed hs).bind fun types s₁ h₁ htypes => ?_
    refine Yields.bind (Q := fun o _ => ∀ m ∈ o, m.Over s.vocabulary) (.rand fun o stream h m hm => ?_)
      fun o s₂ _ ho => ?_
    · refine instantiateFunction_canGive (Option.mem_def.mp hm ▸ h) (fun u hu => (htypes u hu).1)
        (fun p hp => ?_) hfixed
      exact hf _ (List.mem_append_right _ (List.mem_map_of_mem hp))
    · split
      · exact .pure nofun
      · refine .pure fun m hm => ?_
        obtain ⟨hfits, hm⟩ := Option.ite_none_right_eq_some.mp (Option.mem_def.mp hm)
        cases hm
        exact ⟨ho _ rfl, hfits⟩

theorem bindCallees_typed {fs : List (FuncDecl × Option Expr × Subst)} (hs : s.WellTyped)
    (hfs : ∀ x ∈ fs, (∀ u ∈ x.1.types, u.Over s.vocabulary) ∧ x.2.2.Over s.vocabulary)
    (ht : t.Over s.vocabulary) :
    (bindCallees t fs).Yields Session.OnlyDraws s fun cs _ =>
      ∀ c ∈ cs, c.Over s.vocabulary ∧ returnFits c.result t := by
  induction fs generalizing s with
  | nil => exact .pure nofun
  | cons x fs ih =>
    obtain ⟨f, receiver, view⟩ := x
    obtain ⟨⟨hf, hview⟩, hfs⟩ := List.forall_mem_cons.mp hfs
    rw [bindCallees]
    refine (bindCallee_typed hs hf hview ht).bind fun bound s₁ h₁ hbound => ?_
    obtain ⟨stream, rfl⟩ := h₁
    refine (ih (hs.atStream stream) hfs ht).bind fun others s₂ _ hothers => .pure ?_
    split
    · obtain ⟨hm, hfits⟩ := hbound _ rfl
      exact List.forall_mem_cons.mpr ⟨⟨⟨hf, hm⟩, hfits⟩, hothers⟩
    · exact hothers

theorem callees_typed (hs : s.WellTyped) (ht : t.Over s.vocabulary) :
    (callees t).Yields Session.OnlyDraws s fun cs _ =>
      ∀ c ∈ cs, c.Over s.vocabulary ∧ returnFits c.result t := by
  unfold callees
  refine .get ((bindCallees_typed hs (fun x hx => ?_) ht).bind fun visible s₁ h₁ hvisible => .get ?_)
  · exact hs.visibleFuncs_over (List.mem_append_left _ hx)
  obtain ⟨stream, rfl⟩ := h₁
  have hs₁ := hs.atStream stream
  refine (bindCallees_typed hs₁ (fun x hx => ?_) ht).bind fun methods s₂ _ hmethods => .pure ?_
  · exact hs₁.visibleFuncs_over (List.mem_append_right _ hx)
  · exact List.forall_mem_append.mpr ⟨hvisible, hmethods⟩

/-! ## New callees -/

/-- **A function that is declared for a request returns just what is asked for.** -/
theorem callNewFunc_typed {ns : Namespace} (he : e.Sound) (hs : s.WellTyped)
    (ht : t.Over s.vocabulary) (hns : ns.segments ≠ []) :
    (callNewFunc e ns t).Yields Session.Typed s fun a s' => a.Fits s'.vocabulary t := by
  unfold callNewFunc
  have hspec : FuncSpec.Stated s { ret := some t, notVoid := !t.isVoid, ns := some ns } := by
    refine ⟨⟨fun u hu => ?_, nofun, nofun⟩, fun ns' hns' => ?_, nofun⟩
    · exact Option.some.inj hu ▸ ht
    · exact Option.some.inj hns' ▸ hns
  refine (genFuncDecl_typed he hs hspec).bind fun f s₁ h₁ ⟨hf, hret⟩ => ?_
  obtain ⟨hgrows, hs₁⟩ := h₁ hs
  have ht₁ := hgrows.over ht
  refine buildCall_fits he hs₁ ⟨hf, .empty⟩ ?_
  show (f.ret.subst ∅).isAssignable t
  rw [hret t rfl, Ty.subst_empty]
  exact Ty.isAssignable_refl t

/-- **A method of a class that is declared for a request returns what is asked for**, if the
variables of the request can be told apart. -/
theorem callNewMethod_typed (he : e.Sound) (hs : s.WellTyped) (ht : t.Over s.vocabulary) :
    (callNewMethod e t).Yields Session.Typed s fun a s' => a.Fits s'.vocabulary t := by
  unfold callNewMethod
  refine (genMatchingClass_typed he hs ht).bind fun r s₁ h₁ hr => ?_
  obtain ⟨receiverType, memberType⟩ := r
  obtain ⟨hreceiver, hmember, hunify, hname⟩ := hr
  obtain ⟨hgrows₁, hs₁⟩ := h₁ hs
  have ht₁ := hgrows₁.over ht
  refine .get ?_
  split
  · exact .pure (.of_ty? ht₁ rfl)
  rename_i c view hclass
  obtain ⟨hc, hview⟩ := Session.mem_of_receiver? hreceiver hclass
  split
  · exact .pure (.of_ty? ht₁ rfl)
  rename_i f hfound
  have hf := hs₁.func_over hc (List.mem_of_find?_eq_some hfound)
  have hret : f.ret = memberType := by simpa using List.find?_some hfound
  refine (nested_typed (Q := fun _ _ => True) hs₁ fun s₂ hs₂ hv => ?_).bind fun receiver s₂ h₂ _ => ?_
  · exact (he.expr hs₂ (hv ▸ hreceiver)).mono fun _ _ _ _ => trivial
  obtain ⟨hgrows₂, hs₂⟩ := h₂ hs₁
  have hcallee : Callee.Over s₁.vocabulary ⟨f, some receiver, view⟩ := ⟨hf, hview⟩
  refine (buildCall_typed he hs₂ (hcallee.mono fun _ => hgrows₂.over)).mono
    fun a s₃ h₃ ⟨typeArgs, args, ha⟩ => ?_
  obtain ⟨hgrows₃, hs₃⟩ := h₃ hs₂
  have hover : ∀ u : Ty, u.Over s₁.vocabulary → u.Over s₃.vocabulary := fun u hu =>
    hgrows₃.over (hgrows₂.over hu)
  -- The call has the member's type as the receiver instantiates it.
  have hresult : Callee.result ⟨f, some receiver, view⟩ = memberType.subst receiverType.argMap := by
    rw [Callee.result, hret, Session.eq_argMap_of_receiver? hclass]
  intro u hu
  obtain rfl : Callee.result ⟨f, some receiver, view⟩ = u := by
    rw [ha] at hu
    exact Option.some.inj hu
  refine ⟨hover _ hcallee.result, ?_⟩
  rw [hresult]
  -- A type that can be named is matched exactly; of any other it is known only that it unifies.
  by_cases hnameable : t.Nameable
  · rw [hname hnameable]
    exact .inl (Ty.isAssignable_refl t)
  · refine .inr ⟨⟨receiver, f.name, typeArgs, args, _, hresult ▸ ha⟩, t, hover t ht₁,
      Ty.isSubtype_refl t, hnameable, hunify⟩

/-- **A call fits what is asked for.** -/
theorem genFuncCall_typed (he : e.Sound) (hs : s.WellTyped) (ht : t.Over s.vocabulary) :
    (genFuncCall e t).Yields Session.Typed s fun a s' => a.Fits s'.vocabulary t := by
  unfold genFuncCall
  extract_lets callFunc
  -- What follows is the same whether or not a variable was tried first.
  have hcallFunc : ∀ (s₁ : Session) (viaVariable : Option Expr), s₁.WellTyped →
      t.Over s₁.vocabulary → (∀ a ∈ viaVariable, a.Fits s₁.vocabulary t) →
      (callFunc viaVariable).Yields Session.Typed s₁ fun a s' => a.Fits s'.vocabulary t := by
    intro s₁ viaVariable hs₁ ht₁ hvia
    unfold callFunc
    split
    · exact .pure (hvia _ rfl)
    refine Yields.bind (Yields.of_onlyDraws (callees_typed hs₁ ht₁)) fun cs s₂ _ h₂ => ?_
    obtain ⟨⟨stream₂, rfl⟩, hcs⟩ := h₂
    have hs₂ := hs₁.atStream stream₂
    refine Yields.bind (Yields.of_onlyDraws Yields.pick) fun picked s₃ _ h₃ => ?_
    obtain ⟨⟨stream₃, rfl⟩, hpicked⟩ := h₃
    have hs₃ := hs₂.atStream stream₃
    split
    · rename_i c
      obtain ⟨hc, hfits⟩ := hcs c (hpicked c rfl)
      exact buildCall_fits he hs₃ hc (Session.isAssignable_of_returnFits hc.result ht₁ hfits)
    · split
      · refine Yields.bind (Yields.of_onlyDraws Yields.coin) fun global s₄ _ h₄ => ?_
        obtain ⟨⟨stream₄, rfl⟩, -⟩ := h₄
        have hs₄ := hs₃.atStream stream₄
        split
        · exact callNewFunc_typed he hs₄ ht₁ (by simp [Namespace.global])
        · exact callNewMethod_typed he hs₄ ht₁
      · refine .get ?_
        split
        · exact .get (callNewFunc_typed he hs₃ ht₁ hs₃.rooted)
        · exact callNewMethod_typed he hs₃ ht₁
  refine Yields.bind (Yields.of_onlyDraws (Yields.onlyIf Yields.chance)) fun ref s₁ _ h₁ => ?_
  obtain ⟨⟨stream, rfl⟩, -⟩ := h₁
  have hs₁ := hs.atStream stream
  split
  · refine (genRefCall_typed he hs₁).bind fun o s₂ h₂ ho => ?_
    exact hcallFunc s₂ o (h₂ hs₁).2 ((h₂ hs₁).1.over ht) ho
  · exact .pass (hcallFunc _ none hs₁ ht fun _ h => by cases h)

end Gen

end ProgramGen

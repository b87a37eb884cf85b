import ProgramGen.Proofs.Generation.Values
import ProgramGen.Synthesis.Call

/-!
# Calls

What is called is a variable that can be read, a function of a scope around, or a method of a
receiver. Its parameters are of plain types where the call is made, and so are the types that its
type parameters stand for; it returns values if and only if values are asked for.
-/

namespace ProgramGen

open Session

variable {s s' s₁ : Session} {t u ret : Ty} {e : Engine} {P : Permit} {a : Expr} {n : String} {c : ClassDecl}
variable {m view : Subst} {f : FuncDecl} {params : List Ty} {receiver : Option Expr} {ns : Namespace}

/-! ## Builtin receivers -/

/-- No method of a builtin type takes or returns nothing. -/
theorem Language.ne_void_of_mem_methods (l : Language) (k : BuiltinKind) :
    ∀ b ∈ l.methods k, b.ret ≠ .void ∧ ∀ p ∈ b.params, p.2 ≠ .void := by
  cases l <;> cases k <;> decide

/-- The types that the signature of a function states are plain, but that it may return nothing. -/
def FuncDecl.IsPlain (f : FuncDecl) : Prop := (Decl.func f).TypesPlain

/-- The methods of a builtin type are of plain types. -/
theorem Language.isPlain_of_classOf? {l : Language} (hc : l.classOf? t = some c) (hf : f ∈ c.funcs) : f.IsPlain := by
  unfold classOf? at hc
  split at hc
  · cases hc
    obtain ⟨b, hb, rfl⟩ := List.mem_map.mp hf
    obtain ⟨hret, hparams⟩ := l.ne_void_of_mem_methods _ b hb
    refine ⟨fun p hp => ?_, .inl (l.plain_builtin hret), nofun⟩
    obtain ⟨q, hq, rfl⟩ := List.mem_map.mp hp
    exact l.plain_builtin (hparams q hq)
  · cases hc

/-- The function is a method of a builtin type: it is not generic and has no default values. -/
structure FuncDecl.IsBuiltin (l : Language) (f : FuncDecl) : Prop where
  method : ∃ k, ∃ b ∈ l.methods k, f.name = b.name ∧ f.params.length = b.params.length
  defaults : ∀ p ∈ f.params, p.defaultValue = none
  typeParams : f.typeParams = []

theorem Language.isBuiltin_of_classOf? {l : Language} (hc : l.classOf? t = some c) (hf : f ∈ c.funcs) :
    f.IsBuiltin l := by
  unfold classOf? at hc
  split at hc
  · cases hc
    obtain ⟨b, hb, rfl⟩ := List.mem_map.mp hf
    refine ⟨⟨_, b, hb, rfl, List.length_map _⟩, fun p hp => ?_, rfl⟩
    obtain ⟨q, -, rfl⟩ := List.mem_map.mp hp
    rfl
  · cases hc

/-! ## Type arguments -/

/-- All type parameters of the function stand for something, or none does. -/
def FuncDecl.BoundBy (f : FuncDecl) (m : Subst) : Prop :=
  (∀ p ∈ f.typeParams, m.contains p) ∨ ∀ p ∈ f.typeParams, m.lookup p.name = none

/-- A call has a type argument for each type parameter, or none. -/
theorem FuncDecl.BoundBy.length_typeArgs (h : f.BoundBy m) :
    (f.typeParams.filterMap fun p => m.lookup p.name).length = f.typeParams.length ∨
      (f.typeParams.filterMap fun p => m.lookup p.name) = [] := by
  refine h.imp (fun hall => ?_) List.filterMap_eq_nil_iff.mpr
  refine (List.filterMap_length_eq_length).mpr fun p hp => hall p hp

namespace Session

/-- The methods of a receiver are declared or builtin. -/
theorem Sound.declared_of_anyReceiver? (hs : s.Sound) (h : s.anyReceiver? t = some (c, m)) (hf : f ∈ c.funcs) :
    .func f ∈ s.decls c.scope ∨ f.IsBuiltin s.language := by
  unfold anyReceiver? at h
  split at h
  · rename_i r hr
    cases h
    exact .inl (hs.func_mem (of_receiver? hr).1 hf)
  · obtain ⟨d, hd, heq⟩ := Option.map_eq_some_iff.mp h
    obtain ⟨rfl, rfl⟩ := Prod.mk.inj heq
    exact .inr (Language.isBuiltin_of_classOf? hd hf)

/-- The methods of a receiver are of plain types, and so are the arguments that it is seen with. -/
theorem Sound.isPlain_of_anyReceiver? (hs : s.Sound) (ht : t.Plain) (h : s.anyReceiver? t = some (c, m)) :
    (∀ f ∈ c.funcs, f.IsPlain) ∧ m.All Ty.Plain := by
  unfold anyReceiver? at h
  split at h
  · rename_i r hr
    cases h
    obtain ⟨hc, -, rfl, -⟩ := of_receiver? hr
    exact ⟨fun f hf => hs.typesPlain_func hc hf, .argMap Ty.Plain.closed ht⟩
  · obtain ⟨d, hd, heq⟩ := Option.map_eq_some_iff.mp h
    obtain ⟨rfl, rfl⟩ := Prod.mk.inj heq
    exact ⟨fun f hf => Language.isPlain_of_classOf? hd hf, .empty⟩

/-! ## Callees -/

/-- Wherever the current place is seen from, the name is no changing local around a closure. -/
def Reads (s : Session) (n : String) : Prop :=
  ∀ s', s.Leads s' → ∀ T v, s'.Admits s.frame.ns s.frame.captureRoot T v → v.access? n ≠ some .outer

theorem Reads.step (h : s.Reads n) (hstep : s.Step P s') : s'.Reads n := by
  intro s'' hl T v hv
  rw [hstep.frame] at hv
  exact h s'' (hstep.toLeads.trans hl) T v hv

theorem Sound.reads (hs : s.Sound) {d : Decl} (hd : d ∈ s.decls ns) (hread : s.canRead ns d) : s.Reads d.name :=
  fun _ hl _ _ hv => hs.access_ne_outer hd hread hl hv

theorem Sound.reads_readable (hs : s.Sound) {d : Decl} (hd : d ∈ s.readableVars) : s.Reads d.name := by
  obtain ⟨m, -, hdecl, -, hread⟩ := Sound.exists_of_mem_readableVars hd
  exact hs.reads hdecl hread

/-- The function is declared, perhaps with another body. -/
def HasFunc (s : Session) (f : FuncDecl) : Prop := ∃ ns g, .func g ∈ s.decls ns ∧ f.SameHead g

/-- What is called on the receiver `r`, if there is one: a declared function, or a method of a builtin type. -/
def IsCallee (s : Session) (f : FuncDecl) (r : Option Expr) : Prop :=
  s.HasFunc f ∨ (r.isSome ∧ f.IsBuiltin s.language)

theorem hasFunc_of_mem (h : .func f ∈ s.decls ns) : s.HasFunc f := ⟨ns, f, h, .refl f⟩

theorem HasFunc.mono (h : s.HasFunc f) (hl : s.Leads s') : s'.HasFunc f := by
  obtain ⟨ns, g, hg, hhead⟩ := h
  obtain ⟨k, hk, hhead'⟩ := hl.funcs ns g hg
  exact ⟨ns, k, hk, hhead.trans hhead'⟩

theorem IsCallee.mono (h : s.IsCallee f receiver) (hl : s.Leads s') : s'.IsCallee f receiver :=
  h.imp (·.mono hl) (.imp_right fun hf => hl.language ▸ hf)

/-- **A call of it has the right number of arguments.** -/
theorem IsCallee.calls {args : List Expr} (h : s.IsCallee f receiver) (hm : f.BoundBy m)
    (hargs : args.length = (f.params.filter fun p => !(s.language == .kotlin && p.defaultValue.isSome)).length) :
    s.context.Calls s.language receiver f.name (f.typeParams.filterMap fun p => m.lookup p.name) args := by
  rcases h with ⟨ns, g, hg, hhead⟩ | ⟨hreceiver, hf⟩
  · rw [← hhead.name]
    refine .declared hg ⟨?_, ?_⟩
    · rw [hhead.params, hargs]
    · rw [hhead.typeParams]
      exact hm.length_typeArgs
  · obtain ⟨r, rfl⟩ := Option.isSome_iff_exists.mp hreceiver
    obtain ⟨k, b, hb, hname, hlength⟩ := hf.method
    rw [hname, hf.typeParams]
    refine .builtin hb (hargs.trans ?_)
    rw [List.filter_eq_self.mpr fun p hp => by simp [hf.defaults p hp], hlength]

/-- A function that can be called from the current place on what the receiver `r` is, if there is one;
there the parameters of the receiver's class stand for what `m` says. -/
structure CanCall (s : Session) (f : FuncDecl) (r : Option Expr) (m : Subst) : Prop where
  plain : f.IsPlain
  view : m.All Ty.Plain
  receiver : ∀ a ∈ r, s.Stands noTargets 1 a
  reads : r = none → s.Reads f.name
  callee : s.IsCallee f r

/-- A callee whose result is asked for at the depth `d`. -/
structure Calls (s : Session) (d : Nat) (t : Ty) (c : Callee) : Prop where
  plain : c.func.IsPlain
  view : c.view.All Ty.Plain
  receiver : ∀ a ∈ c.receiver, s.Operand d t a
  reads : c.receiver = none → s.Reads c.func.name
  callee : s.IsCallee c.func c.receiver
  bound : c.func.BoundBy c.view
  fits : (c.func.ret.subst c.view).isVoid = t.isVoid

theorem Calls.step {d : Nat} {c : Callee} (h : s.Calls d t c) (hstep : s.Step P s') : s'.Calls d t c :=
  ⟨h.plain, h.view, fun a ha => (h.receiver a ha).mono hstep, fun hnone => (h.reads hnone).step hstep,
    h.callee.mono hstep.toLeads, h.bound, h.fits⟩

/-- What is called without a receiver is declared. -/
theorem Calls.hasFunc {d : Nat} {c : Callee} (h : s.Calls d t c) (hnone : c.receiver = none) (hl : s.Leads s') :
    s'.HasFunc c.func :=
  (h.callee.resolve_right fun hsome => by rw [hnone] at hsome; cases hsome.1).mono hl

theorem isVoid_of_returnFits (h : returnFits ret t) : ret.isVoid = t.isVoid := by
  unfold returnFits at h
  split at h
  · simp_all
  · simp_all

/-- **What can be called without a receiver or on the object itself**, or on a readable variable. -/
theorem Sound.canCall_of_mem (hs : s.Sound) {x : FuncDecl × Option Expr × Subst}
    (hx : x ∈ s.visibleFuncs ++ s.receiverFuncs) : s.CanCall x.1 x.2.1 x.2.2 := by
  rcases List.mem_append.mp hx with hx | hx
  · obtain ⟨g, hg, h⟩ := List.mem_filterMap.mp hx
    obtain ⟨ns, hdecl⟩ := Context.mem_funcs hg
    have hplain : g.IsPlain := hs.types ns _ hdecl
    split at h
    · cases h
    · split at h
      · split at h
        · rename_i this hthis
          obtain ⟨-, h⟩ := Option.ite_none_left_eq_some.mp h
          cases h
          exact ⟨hplain, .empty, fun a ha => by cases ha; exact hs.stands_this (hs.plain_thisType? hthis),
            (fun h => by cases h), .inl (hasFunc_of_mem hdecl)⟩
        · cases h
      · cases h
        exact ⟨hplain, .empty, (fun _ h => by cases h), fun _ => hs.reads hdecl (by unfold canRead; split <;> trivial),
          .inl (hasFunc_of_mem hdecl)⟩
  · obtain ⟨d, hd, h⟩ := List.mem_flatMap.mp hx
    split at h
    · cases h
    · rename_i t ht
      have hreadable := hs.plain_readable hd ht
      split at h
      · cases h
      · rename_i c view hreceiver
        obtain ⟨g, hg, rfl⟩ := List.mem_map.mp h
        obtain ⟨hfuncs, hview⟩ := hs.isPlain_of_anyReceiver? hreadable hreceiver
        exact ⟨hfuncs g hg, hview, fun a ha => by cases ha; exact .readable hs hd hreadable, (fun h => by cases h),
          (hs.declared_of_anyReceiver? hreceiver hg).imp hasFunc_of_mem fun hf => ⟨rfl, hf⟩⟩

end Session

namespace Gen

/-! ## Binding -/

/-- **A function is bound to plain types so that its result fits.** -/
theorem bindCallee_ensures (hs : s.Sound) (hf : f.IsPlain) (hview : view.All Ty.Plain) (ht : t.Requested) :
    (bindCallee f view t).Ensures OnlyDraws s fun r _ => ∀ m ∈ r, m.All Ty.Plain ∧
      f.BoundBy m ∧ (f.ret.subst m).isVoid = t.isVoid := by
  unfold bindCallee
  extract_lets ret fixed
  have hret : ret.Requested := (hf.2.1.subst_plain fun _ _ h => hview.lookup h).1
  split
  · rename_i hgeneric
    refine .pure (refl_of OnlyDraws s) fun m hm => ?_
    obtain ⟨hfits, heq⟩ := Option.ite_none_right_eq_some.mp hm
    cases heq
    have hnone : f.typeParams = [] := by simpa [FuncDecl.isGeneric] using hgeneric
    exact ⟨hview, .inr (by simp [hnone]), isVoid_of_returnFits hfits⟩
  -- The result type fixes the parameters it mentions, which adds plain types to those of the
  -- receiver.
  have hfixed : fixed.All Ty.Plain := by
    show Subst.All _ (if _ then _ else _)
    split
    · rename_i hvariables
      rw [Bool.and_eq_true, Bool.not_eq_true'] at hvariables
      have hplain : ret.Plain := hret.resolve_right fun ⟨l, hl⟩ => by
        rw [hl] at hvariables
        cases l <;> cases hvariables.1
      split
      · exact hview.insertMissing (Ty.Plain.closed.unify? (ht.plain hvariables.2) hplain ‹_›)
      · exact hview
    · exact hview
  refine (candidateTypes_ensures s .arguments).bind fun types s₁ _ ⟨_, htypes⟩ => ?_
  refine Ensures.draw.bind fun r s₂ _ hr => ?_
  split
  · exact .pure (refl_of OnlyDraws _) nofun
  · refine .pure (refl_of OnlyDraws _) fun m hm => ?_
    obtain ⟨hfits, heq⟩ := Option.ite_none_right_eq_some.mp hm
    cases heq
    refine ⟨?_, .inl (contains_of_instantiateFunction hr).2, isVoid_of_returnFits hfits⟩
    exact Ty.Plain.closed.instantiateFunction hr (fun u hu hargument => (hs.candidate_argument (htypes u hu) hargument).1)
      hf.2.2 hfixed

theorem bindCallees_ensures {r : Session} {d : Nat} {fs : List (FuncDecl × Option Expr × Subst)} (hs : s.Sound)
    (hdepth : d ≤ 2 * r.maxDepth) (hfs : ∀ x ∈ fs, r.CanCall x.1 x.2.1 x.2.2) (ht : t.Requested) :
    (bindCallees t fs).Ensures OnlyDraws s fun cs _ => ∀ c ∈ cs, r.Calls d t c := by
  induction fs generalizing s with
  | nil => exact .pure (refl_of OnlyDraws s) nofun
  | cons x fs ih =>
    obtain ⟨f, receiver, view⟩ := x
    have hcall := hfs _ List.mem_cons_self
    refine (bindCallee_ensures hs hcall.plain hcall.view ht).bind fun bound s₁ h₁ hbound => ?_
    obtain ⟨stream, rfl⟩ := h₁
    refine (ih (Sound.atStream hs stream) fun y hy => hfs y (List.mem_cons_of_mem _ hy)).bind
      fun others s₂ _ hothers => .pure (refl_of OnlyDraws _) ?_
    split
    · rename_i m
      obtain ⟨hview, hm, hfits⟩ := hbound m rfl
      refine List.forall_mem_cons.mpr ⟨⟨hcall.plain, hview, fun a ha => (hcall.receiver a ha).deeper ?_, hcall.reads,
        hcall.callee, hm, hfits⟩, hothers⟩
      rw [exprDepth, if_pos hdepth]
      omega
    · exact hothers

/-- **All that can be called** from where the generator is. -/
theorem callees_ensures (hs : s.Sound) (hdepth : s.frame.depth ≤ 2 * s.maxDepth) (ht : t.Requested) :
    (callees t).Ensures OnlyDraws s fun cs _ => ∀ c ∈ cs, s.Calls s.frame.depth t c := by
  unfold callees
  refine .get ((bindCallees_ensures hs hdepth (fun x hx => hs.canCall_of_mem (List.mem_append_left _ hx)) ht).bind
    fun visible s₁ h₁ hvisible => .get ?_)
  obtain ⟨stream, rfl⟩ := h₁
  refine (bindCallees_ensures (Sound.atStream hs stream) hdepth
    (fun x hx => hs.canCall_of_mem (List.mem_append_right _ hx)) ht).bind fun methods s₂ _ hmethods => ?_
  exact .pure (refl_of OnlyDraws _) (List.forall_mem_append.mpr ⟨hvisible, hmethods⟩)

/-! ## Calls -/

section Calls

variable (hs : s.Sound) (he : s.Served e 1) (hdepth : s.frame.depth ≤ 2 * s.maxDepth) (hP : P.Covers s.frame.ns)
include hs he hdepth hP

/-- **A function is called.** -/
theorem buildCall_ensures {c : Callee} (hc : s.Calls s.frame.depth t c) :
    (buildCall e c).Ensures (Step P) s fun a s' => s'.Answers s.frame.depth t a := by
  have hview : ∀ n u, c.view.lookup n = some u → u.Plain := fun _ _ h => hc.view.lookup h
  unfold buildCall
  refine .get ?_
  extract_lets l params
  have hplain : ∀ p ∈ params, (p.ty.subst c.view).Plain := fun p hp =>
    (hc.plain.1 p (List.mem_of_mem_filter hp)).subst hview
  refine (nestedOperands_ensures (t := t) (fun p : ParamDecl => p.ty.subst c.view) hs he hdepth hP hplain
    fun p hp s₀ hs₀ he₀ hP₀ => he₀.expr hs₀ (.inl (hplain p hp)) hP₀).bind fun args s₁ h₁ ⟨hlength, hargs⟩ => ?_
  have hret := (hc.plain.2.1.subst_plain hview).1
  refine .pure (.refl h₁.sound) (.of_operands (fun u hu => ?_) rfl ?_ (fun s' hl v hv => ?_) (fun s' hl => ?_) ?_
    fun s' hl v _ => ?_)
  · cases hu
    exact ⟨hret, hc.fits⟩
  · refine List.forall_mem_cons.mpr ⟨hret, fun u hu => .inl ?_⟩
    obtain ⟨p, -, hp⟩ := List.mem_filterMap.mp hu
    exact hview _ _ hp
  · have hreads : c.receiver = none → v.access? c.func.name ≠ some .outer := fun hnone =>
      (hc.reads hnone).step h₁ s' hl _ v hv
    unfold Expr.Accesses
    split <;> first | trivial | simp_all
  · have hlanguage : s'.language = s.language := hl.language.trans h₁.language
    refine (hc.callee.mono (h₁.toLeads.trans hl)).calls hc.bound ?_
    rw [hlanguage]
    exact hlength
  · exact List.forall_mem_append.mpr ⟨fun a ha => (hc.receiver a (Option.mem_toList.mp ha)).mono h₁, hargs⟩
  · cases hreceiver : c.receiver with
    | some => trivial
    | none =>
      cases hkind : c.func.kind == .nested with
      | false => trivial
      | true =>
        obtain ⟨ns, g, hg, hhead⟩ := hc.hasFunc hreceiver (h₁.toLeads.trans hl)
        exact .inr ⟨ns, g, hg, hhead.kind.trans (by simpa using hkind), hhead.name⟩

/-- **A variable of function type is called**, if there is one. -/
theorem genRefCall_ensures (ht : t.isVoid = false) :
    (genRefCall e t).Ensures (Step P) s fun r s' => ∀ a ∈ r, s'.Answers s.frame.depth t a := by
  unfold genRefCall
  refine .get ((Ensures.pick.drawStep hs).bind fun chosen s₁ h₁ hpick => ?_)
  split
  · exact .pure (.refl h₁.sound) nofun
  rename_i name params ret
  obtain ⟨d, hd, hcallable⟩ := List.mem_filterMap.mp (hpick.2.2 _ rfl)
  split at hcallable
  · rename_i params' ret' hsignature
    obtain ⟨-, heq⟩ := Option.ite_none_right_eq_some.mp hcallable
    cases heq
    obtain ⟨v, hv, hsignature⟩ := Option.bind_eq_some_iff.mp hsignature
    obtain ⟨hparams, hret⟩ := (hs.plain_readable hd hv).functionSignature? hsignature
    have hreads := (hs.reads_readable hd).step h₁
    have hsight : s₁.InSight s₁.frame.ns True d.name := by
      obtain ⟨m, hm, hdecl, hkind, -⟩ := Sound.exists_of_mem_readableVars hd
      exact h₁.inSight _ _ _ (inSight_of_mem (h₁.frame ▸ hm) hdecl hkind)
    rw [← h₁.frame]
    refine (nestedOperands_ensures (t := t) id h₁.sound (he.step h₁) (h₁.depth_le hdepth) (h₁.frame ▸ hP) hparams
      fun p hp s₀ hs₀ he₀ hP₀ => he₀.expr hs₀ (.inl (hparams p hp)) hP₀).bind fun args s₂ h₂ ⟨_, hargs⟩ =>
      .pure (.refl h₂.sound) fun a ha => ?_
    cases ha
    refine .of_operands (fun u hu => ?_) rfl (List.forall_mem_singleton.mpr (.inl hret))
      (fun s' hl v hv => hreads.step h₂ s' hl _ v hv) (fun s' hl => ?_) hargs
      fun _ _ _ hv => .inl (hv _ (h₂.frame ▸ h₂.inSight _ _ _ hsight))
    · cases hu
      exact ⟨.inl hret, hret.isVoid.trans ht.symm⟩
    · obtain ⟨m, -, d', hd', hkind, hname, -⟩ := (h₂.toLeads.trans hl).inSight _ _ _ hsight
      exact hname ▸ .value hd' hkind
  · cases hcallable

/-- **A function is declared and called.** -/
theorem callNewFunc_ensures (ht : t.Requested) (hrooted : ns.segments.head? = some Namespace.globalSegment)
    (hopened : s.Opened ns) (hclass : ns.className? = none) (hcovers : P.Covers ns)
    (hplace : ns = s.frame.ns → ns.IsLocal → s.HasPlace) :
    (callNewFunc e ns t).Ensures (Step P) s fun a s' => s'.Answers s.frame.depth t a := by
  unfold callNewFunc
  have hspec : FuncSpec.Declarable { ret := some t, notVoid := !t.isVoid, ns := some ns } P s ns :=
    { ns := rfl
      rooted := hrooted
      opened := hopened
      place := .scope hclass hcovers rfl rfl
      named := .fresh rfl rfl
      placed := hplace
      ret := fun u hu => Option.some.inj hu ▸ ht
      typeParams := nofun
      whole := nofun }
  refine (genFuncDecl_ensures hs he hspec).bind fun f s₁ h₁ hf => ?_
  rw [← h₁.frame]
  have hempty : (∅ : Subst).All Ty.Plain := .empty
  have hc : s₁.Calls s₁.frame.depth t ⟨f, none, ∅⟩ :=
    { plain := h₁.sound.types _ _ hf.mem
      view := hempty
      receiver := fun _ h => by cases h
      reads := fun _ => h₁.sound.reads hf.mem (by unfold canRead; split <;> trivial)
      callee := .inl (hasFunc_of_mem hf.mem)
      bound := .inr fun _ _ => rfl
      fits := by
        rw [show f.ret = t from hf.ret t rfl]
        exact (ht.subst_plain fun _ _ h => hempty.lookup h).2 }
  exact buildCall_ensures h₁.sound (he.step h₁) (h₁.depth_le hdepth) (h₁.frame ▸ hP) hc

/-- **A method of a new class is called.** -/
theorem callNewMethod_ensures (ht : t.Requested) :
    (callNewMethod e t).Ensures (Step P) s fun a s' => s'.Answers s.frame.depth t a := by
  unfold callNewMethod
  refine (genMatchingClass_ensures hs he ht (by exact nofun)).bind fun r s₁ h₁ hr => .get ?_
  rw [← h₁.frame]
  have hunresolved : (pure (Expr.unresolved t) : Gen Expr).Ensures (Step P) s₁
      fun a s' => s'.Answers s₁.frame.depth t a := .pure (.refl h₁.sound) (.unresolved ht)
  split
  · exact hunresolved
  rename_i c view hreceiver
  obtain ⟨hc, -, rfl, hobject⟩ := of_receiver? hreceiver
  split
  · exact hunresolved
  rename_i f hfound
  have hf : f ∈ c.funcs := List.mem_of_find?_eq_some hfound
  have hret : f.ret = r.2 := by simpa using List.find?_some hfound
  have hview : r.1.argMap.All Ty.Plain := .argMap Ty.Plain.closed hr.plain
  have hP₁ : P.Covers s₁.frame.ns := h₁.frame ▸ hP
  refine (nestedExpr_ensures h₁.sound (he.step h₁).exprs (.inl hr.plain) hP₁).bind fun receiver s₂ h₂ hanswer => ?_
  rw [← h₂.frame] at hanswer ⊢
  refine buildCall_ensures h₂.sound ((he.step h₁).step h₂) (h₂.depth_le (h₁.depth_le hdepth)) (h₂.frame ▸ hP₁)
    ⟨h₁.sound.typesPlain_func hc hf, hview, fun a ha => ?_, nofun, ?_, .inr fun p hp => ?_, ?_⟩
  · cases ha
    exact hanswer.operand hr.plain.isVoid (h₂.depth_le (h₁.depth_le hdepth)) (Nat.lt_succ_self _)
  · exact .inl ((hasFunc_of_mem (h₁.sound.func_mem hc hf)).mono h₂.toLeads)
  · exact (hr.plain.isView_argMap hobject).lookup_of_isMarked (((h₁.sound.classes c hc).methods f hf).marked p hp)
  · rw [hret, ← hr.isVoid]
    exact (hr.requested.subst_plain fun _ _ h => hview.lookup h).2

/-- **A call answers every request.** -/
theorem genFuncCall_ensures (ht : t.Requested) :
    (genFuncCall e t).Ensures (Step P) s fun a s' => s'.Answers s.frame.depth t a := by
  unfold genFuncCall
  extract_lets rest
  have hnew : ∀ s₁, s.Step P s₁ → (callNewMethod e t).Ensures (Step P) s₁ fun a s' => s'.Answers s.frame.depth t a :=
    fun s₁ h₁ => h₁.frame ▸ callNewMethod_ensures h₁.sound (he.step h₁) (h₁.depth_le hdepth) (h₁.frame ▸ hP) ht
  -- Once a call through a variable has been tried, the rest does not depend on how that went.
  have hrest : ∀ (call : Option Expr) (s₁ : Session), s.Step P s₁ → (∀ a ∈ call, s₁.Answers s.frame.depth t a) →
      (rest call).Ensures (Step P) s₁ fun a s' => s'.Answers s.frame.depth t a := by
    intro call s₁ h₁ hcall
    have hdepth₁ := h₁.depth_le hdepth
    have hP₁ : P.Covers s₁.frame.ns := h₁.frame ▸ hP
    unfold rest
    split
    · exact .pure (.refl h₁.sound) (hcall _ rfl)
    refine ((callees_ensures h₁.sound hdepth₁ ht).drawStep h₁.sound).bind fun cs s₂ h₂ hcs => ?_
    obtain ⟨⟨stream, rfl⟩, hcs⟩ := hcs
    refine (Ensures.pick.drawStep h₂.sound).bind fun chosen s₃ h₃ hpick => ?_
    have h₁₃ := h₁.trans (h₂.trans h₃)
    have hs₃ := h₃.sound
    have hP₃ : P.Covers s₃.frame.ns := h₁₃.frame ▸ hP
    split
    · rename_i c
      have hc := ((hcs c (hpick.2.2 c rfl)).step h₂).step h₃
      rw [← (h₂.trans h₃).frame] at hc
      rw [← h₁₃.frame]
      exact buildCall_ensures hs₃ (he.step h₁₃) (h₁₃.depth_le hdepth) hP₃ hc
    split
    · refine (Ensures.coin.drawStep hs₃).bind fun byFunc s₄ h₄ _ => ?_
      have h₁₄ := h₁₃.trans h₄
      split
      · rw [← h₁₄.frame]
        exact callNewFunc_ensures h₄.sound (he.step h₁₄) (h₁₄.depth_le hdepth) (h₁₄.frame ▸ hP) ht rfl h₄.sound.opened_global
          Namespace.className?_global (.inl rfl) fun _ h => absurd rfl h.ne_global
      · exact hnew s₄ h₁₄
    · refine .get ?_
      split
      -- A function can be nested here, so the new one goes into the present scope.
      · rename_i hnest
        simp only [canNestFunc, Bool.and_eq_true, Bool.not_eq_true', Option.isNone_iff_eq_none] at hnest
        obtain ⟨⟨⟨⟨hlocal, hclass⟩, hbody⟩, hbranch⟩, -⟩ := hnest
        rw [← h₁₃.frame]
        exact .get (callNewFunc_ensures hs₃ (he.step h₁₃) (h₁₃.depth_le hdepth) hP₃ ht hs₃.rooted hs₃.here hclass hP₃
          fun _ _ => ⟨hbody, fun _ => hbranch⟩)
      · exact hnew s₃ h₁₃
  refine ((Ensures.onlyIf (R := OnlyDraws) (refl_of OnlyDraws _) fun _ => .chance).drawStep hs).bind
    fun wanted s₁ h₁ hwanted => ?_
  split
  · rename_i hyes
    have hvoid : t.isVoid = false := by simpa using hwanted.2 hyes
    rw [← h₁.frame] at hrest ⊢
    exact (genRefCall_ensures h₁.sound (he.step h₁) (h₁.depth_le hdepth) (h₁.frame ▸ hP) hvoid).bind
      fun call s₂ h₂ hcall => hrest call s₂ (h₁.trans h₂) hcall
  · exact .pass (hrest none s₁ h₁ fun _ h => by cases h)

end Calls

end Gen

end ProgramGen

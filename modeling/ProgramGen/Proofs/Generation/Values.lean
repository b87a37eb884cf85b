import ProgramGen.Proofs.Generation.Closures
import ProgramGen.Proofs.Program.Interfaces

/-!
# New values

A value of a type from nothing. A reference to a function and a closure are of a function type, an
instance has an argument for each field of its class, and what has no values gets a placeholder. An
abstract type is answered by way of a concrete subtype, or of a class that implements it.
-/

namespace ProgramGen

open Session

variable {s s' s₀ s₁ s₂ : Session} {t u ret : Ty} {e : Engine} {P : Permit} {a : Expr} {c : ClassDecl} {m : Subst}
variable {params : List Ty} {l : Language} {T : Demand} {k : Nat} {f : FuncDecl}

/-! ## Function types -/

theorem Language.plain_functionType (hparams : ∀ t ∈ params, t.Plain) (hret : ret.Plain) :
    (l.functionType params ret).Plain := by
  have happ := l.applicable_functionCtor params.length
  refine happ.toIsPlain.applied (fun t ht => ?_) (by simp [functionCtor]) fun hbuiltin hname => ?_
  · rcases List.mem_append.mp ht with ht | ht
    · exact hparams t ht
    · exact List.mem_singleton.mp ht ▸ hret
  · have harray := congrArg TypeCtor.name (happ.collection hbuiltin hname)
    exact absurd harray (l.functionCtor_name_ne _ (by cases l <;> decide))

/-- A function type is read back as what it was made of. -/
theorem Language.eq_of_functionSignature? {params' : List Ty} {ret' : Ty}
    (h : (l.functionType params ret).functionSignature? = some (params', ret')) : params' = params ∧ ret' = ret := by
  obtain ⟨c, -, heq⟩ := Ty.exists_of_functionSignature? h
  obtain ⟨-, hargs⟩ : _ ∧ params ++ [ret] = params' ++ [ret'] := Ty.applied.inj heq
  obtain ⟨hparams, hret⟩ := List.append_inj' hargs rfl
  exact ⟨hparams.symm, (List.singleton_inj.mp hret).symm⟩

/-- The signature of a plain function type is of values. -/
theorem Ty.Plain.functionSignature? (ht : t.Plain) (h : t.functionSignature? = some (params, ret)) :
    (∀ p ∈ params, p.Plain) ∧ ret.Plain := by
  obtain ⟨c, -, rfl⟩ := Ty.exists_of_functionSignature? h
  exact ⟨fun p hp => ht.arg (List.mem_append_left _ hp), ht.arg (by simp)⟩

/-- A generic class is found below a type of another one without arguments, or applied to some. -/
theorem constructor_or_applied_of_subtypeInstance? {d : TypeCtor} (hne : d.name ≠ t.name)
    (h : subtypeInstance? d t = some u) : u = .constructor d ∨ ∃ args, u = .applied d args := by
  unfold subtypeInstance? at h
  split at h
  · exact .inl (Option.some.inj h).symm
  · exact (eq_of_subtypeFrom? h).imp_right fun ⟨_, _, _, _, _, _, h⟩ => ⟨_, h⟩

/-! ## References to functions -/

namespace Session

theorem Sound.plain_ownType (hs : s.Sound) (hc : c ∈ s.classes) : c.ownType.Plain := by
  have hplain := (hs.classes c hc).plain
  unfold ClassDecl.ownType
  split
  · refine hplain.applied (fun t ht => ?_) (List.length_map _) nofun
    obtain ⟨p, hp, rfl⟩ := List.mem_map.mp ht
    exact hplain.params p hp
  · rename_i hgeneric
    have hnone : c.typeParams = [] := by simpa [ClassDecl.isGeneric] using hgeneric
    rw [ClassDecl.type, hnone]
    exact hs.plain_simple hc

theorem Sound.plain_thisType? (hs : s.Sound) (h : s.thisType? = some t) : t.Plain := by
  unfold thisType? at h
  split at h
  · obtain ⟨-, h⟩ := Option.ite_none_right_eq_some.mp h
    obtain ⟨c, hc, rfl⟩ := Option.map_eq_some_iff.mp h
    exact hs.plain_ownType (Context.mem_of_class? hc).2
  · cases h

/-- The object itself can be read in a class. -/
theorem Sound.stands_this (hs : s.Sound) (ht : t.Plain) : s.Stands T 1 (.var "this" t) :=
  .of_children rfl (List.forall_mem_singleton.mpr (.inl ht)) (fun s' hl v hv hthis => by
    obtain ⟨m, -, hm, -⟩ := hv.outer _ (mem_of_lookup hthis)
    exact hs.notThis m (hl.mutables m _ (spent_fixed hs.pool List.mem_cons_self) hm)) (fun _ _ => trivial) nofun
    fun _ _ _ _ => .inl rfl

/-- A reference to a function stands where its receiver does. -/
theorem stands_funcRef {receiver : Option Expr} {n : String} (ht : t.Plain) (h : ∀ a ∈ receiver, s.Stands T k a) :
    s.Stands T (k + 1) (.funcRef receiver n t) :=
  .quiet rfl (List.forall_mem_singleton.mpr (.inl ht)) (fun _ _ => trivial) (fun _ _ => trivial)
    fun b hb => h b (Option.mem_toList.mp hb)

/-- **A reference to a function stands here**, and is of the type that it is made for. -/
theorem Sound.stands_matchingFuncRefs (hs : s.Sound) (ht : t.Plain) (h : a ∈ s.matchingFuncRefs t params ret) :
    s.Stands noTargets 2 a ∧ a.ty? = some t := by
  refine ⟨?_, ty?_matchingFuncRefs h⟩
  rcases List.mem_append.mp h with h | h
  · obtain ⟨f, -, h⟩ := List.mem_filterMap.mp h
    split at h
    · cases h
    · split at h
      · obtain ⟨this, hthis, rfl⟩ := Option.map_eq_some_iff.mp h
        exact stands_funcRef ht fun b hb => by cases hb; exact hs.stands_this (hs.plain_thisType? hthis)
      · cases h
        exact stands_funcRef ht nofun
  · obtain ⟨d, hd, h⟩ := List.mem_flatMap.mp h
    split at h
    · cases h
    · split at h
      · cases h
      · obtain ⟨f, -, rfl⟩ := List.mem_map.mp h
        exact stands_funcRef ht fun b hb => by cases hb; exact .readable hs hd (hs.plain_readable hd ‹_›)

/-- The signature of an interface is a function type. -/
theorem eq_functionType_of_samSignature? {C : Context} (h : samSignature? C l t = some u) :
    ∃ params ret, u = l.functionType params ret := by
  unfold samSignature? at h
  split at h
  · cases h
  · obtain ⟨-, h⟩ := Option.ite_none_left_eq_some.mp h
    exact ⟨_, _, (Option.some.inj h).symm⟩

/-- What a closure for an interface takes and gives back. -/
theorem Sound.plain_samSignature? (hs : s.Sound) (ht : t.Plain) (hobject : t.isObject)
    (h : (samSignature? s.context s.language t).bind Ty.functionSignature? = some (params, ret)) :
    (∀ p ∈ params, p.Plain) ∧ ret.Requested := by
  obtain ⟨signature, hsignature, hparts⟩ := Option.bind_eq_some_iff.mp h
  unfold samSignature? at hsignature
  split at hsignature
  · cases hsignature
  rename_i f m hfound
  obtain ⟨-, hsignature⟩ := Option.ite_none_left_eq_some.mp hsignature
  cases hsignature
  obtain ⟨rfl, rfl⟩ := Language.eq_of_functionSignature? hparts
  obtain ⟨-, hinherits⟩ := inherits_of_mem_abstractMembers (mem_of_samFunction? hfound)
  obtain ⟨hview, d, hd, hf⟩ := hinherits.isView (fun d hd => (hs.classes d hd).plain) ht hobject
  obtain ⟨hparams, hret, -⟩ := hs.typesPlain_func hd hf
  refine ⟨fun p hp => ?_, hview.subst_requested hret⟩
  obtain ⟨u, hu, rfl⟩ := List.mem_map.mp hp
  obtain ⟨q, hq, rfl⟩ := List.mem_map.mp hu
  exact hview.subst_plain (hparams q hq)

/-- **What a closure implements once, it goes on to implement**: the interface is finished, and so is
all that it inherits from. -/
theorem Sound.implementedBy (hs : s.Sound) (hfinished : s.isUnfinished t.name = false)
    (h : samSignature? s.context s.language t = some u) : s.ImplementedBy t u := by
  intro s' hl
  have hdistinct := hs.toRegistered.distinctClasses
  have hsam : isSam s.context t := by
    unfold samSignature? at h
    split at h
    · cases h
    · rename_i f m hfound
      exact Option.isSome_iff_exists.mpr ⟨_, hfound⟩
  obtain ⟨x, hx⟩ := Option.isSome_iff_exists.mp hsam
  obtain ⟨-, d, hd, hkind, -⟩ := samFunction?_eq_some.mp hx
  obtain ⟨hmem, hname⟩ := Context.mem_programClasses_of_globalClass? hd
  have hsettled : ∃ c, (c ∈ s.classes ∧ s.isUnfinished c.name = false) ∧ c.name = t.name :=
    ⟨d, ⟨hmem, hname ▸ hfinished⟩, hname⟩
  obtain ⟨hmem', hfinished'⟩ := hl.finished d hmem (hname ▸ hfinished)
  -- A finished class keeps its members, so the one abstract method found now is the one found
  -- later.
  have hsame : ∀ v : Ty, v.name = d.name → samFunction? s'.context v = samFunction? s.context v := by
    intro v hv
    have hmembers := hs.abstractMembers_mono hl (hl.distinct hdistinct) hmem (hname ▸ hfinished) hv
    have hclass := hdistinct.globalClass? hmem
    have hclass' := (hl.distinct hdistinct).globalClass? hmem'
    refine Option.ext fun y => ?_
    rw [samFunction?_eq_some, samFunction?_eq_some, hmembers, hv, hclass, hclass']
  have hown : d.ownType.name = d.name := ownType_name d
  have hownObject : d.ownType.isObject := by
    unfold ClassDecl.ownType ClassDecl.type ClassDecl.isGeneric
    cases d.typeParams <;> rfl
  refine ⟨⟨d, hmem', hname, hkind, ?_⟩, ?_, ?_⟩
  · rw [isSam, hsame _ hown]
    exact isSam_of_name hs.settled hdistinct hsettled (hown.trans hname) hownObject hsam
  · rwa [isSam, hsame t hname.symm]
  · rwa [samSignature?, hsame t hname.symm, hl.language]

/-- The type is of a finished class that has instances. -/
structure Concrete (s : Session) (t : Ty) : Prop where
  plain : t.Plain
  receiver : ∃ c m, s.receiver? t = some (c, m) ∧ c.kind = .regular ∧ s.isUnfinished c.name = false

/-- A class that has instances goes on to have them. -/
theorem Concrete.mono (h : s.Concrete t) (hs' : s'.Sound) (hl : s.Leads s') : s'.Concrete t := by
  obtain ⟨c, m, hr, hkind, hfinished⟩ := h.receiver
  obtain ⟨hc, hname, -⟩ := of_receiver? hr
  obtain ⟨hc', hfinished'⟩ := hl.finished c hc hfinished
  have hclass : s'.class? t.name = some c := hname ▸ hs'.class?_eq hc'
  refine ⟨h.plain, c, m, ?_, hkind, hfinished'⟩
  unfold receiver? at hr ⊢
  split at hr
  · obtain ⟨d, -, hx⟩ := Option.map_eq_some_iff.mp hr
    cases hx
    exact Option.map_eq_some_iff.mpr ⟨_, hclass, rfl⟩
  · split at hr
    · cases hr
    · obtain ⟨d, -, hx⟩ := Option.map_eq_some_iff.mp hr
      cases hx
      rw [if_neg ‹_›]
      exact Option.map_eq_some_iff.mpr ⟨_, hclass, rfl⟩
  · cases hr

/-- A plain type of a class has the class for a receiver. -/
theorem Sound.receiver?_eq (hs : s.Sound) (hc : c ∈ s.classes) (ht : t.Plain)
    (h : t = .simple c.name c.supertypes ∨ ∃ args, t = .applied c.ctor args) : ∃ m, s.receiver? t = some (c, m) := by
  rcases h with rfl | ⟨args, rfl⟩
  · exact ⟨∅, by simp only [receiver?, hs.class?_eq hc, Option.map_some]⟩
  · have hname : s.class? c.ctor.name = some c := hs.class?_eq hc
    refine ⟨(Ty.applied c.ctor args).argMap, ?_⟩
    rw [receiver?, ht.hasWildcards, hname]
    rfl

/-- What is found below a type among classes other than its own, is of one of them. -/
theorem Sound.concrete_of_mem (hs : s.Sound) (ht : t.Plain)
    (h : u ∈ findSubtypes t s.finishedClasses [] false true) :
    (∃ d ∈ s.classes, u = .constructor d.ctor ∧ d.kind = .regular ∧ s.isUnfinished d.name = false) ∨ s.Concrete u := by
  rw [findSubtypes, List.filter_nil, List.append_nil] at h
  obtain ⟨d, hd, hu⟩ := List.mem_filterMap.mp h
  obtain ⟨hd, hfinished⟩ := List.mem_filter.mp hd
  rw [Bool.not_eq_true'] at hfinished
  obtain ⟨hnot, hu⟩ := Option.ite_none_left_eq_some.mp hu
  simp only [Bool.true_and, Bool.not_false, Bool.or_eq_true, beq_iff_eq, not_or] at hnot
  obtain ⟨hkind, hname⟩ := hnot
  have hkind : d.kind = .regular := by simpa [ClassDecl.isAbstract] using hkind
  have hconcrete : u.Plain → (u = .simple d.name d.supertypes ∨ ∃ args, u = .applied d.ctor args) → s.Concrete u :=
    fun hplain h => by
      obtain ⟨m, hr⟩ := hs.receiver?_eq hd hplain h
      exact ⟨hplain, d, m, hr, hkind, hfinished⟩
  unfold ClassDecl.subtypeOf? at hu
  split at hu
  · rcases plain_of_subtypeInstance? (hs.classes d hd).plain rfl ht hu with hplain | rfl
    · rcases constructor_or_applied_of_subtypeInstance? hname hu with rfl | happlied
      · cases hplain
      · exact .inr (hconcrete hplain (.inr happlied))
    · exact .inl ⟨d, hd, rfl, hkind, hfinished⟩
  · obtain ⟨-, hu⟩ := Option.ite_none_right_eq_some.mp hu
    cases hu
    have htype : d.type = .simple d.name d.supertypes := if_pos (by
      simpa [ClassDecl.isGeneric] using ‹¬d.isGeneric›)
    rw [htype] at hconcrete ⊢
    exact .inr (hconcrete (hs.plain_simple hd) (.inl rfl))

end Session

namespace Gen

section Values

variable (hs : s.Sound) (ht : t.Plain) (he : s.Served e 1) (hdepth : s.frame.depth ≤ 2 * s.maxDepth)
variable (hP : P.Covers s.frame.ns)
include hs ht he hdepth hP

/-- A closure of a plain type answers where there is room for its body. -/
theorem lambda_answers (samTarget : Option Ty) (hparams : ∀ p ∈ params, p.Plain) (hret : ret.Requested)
    (hty : (samTarget.getD (s.language.functionType params ret)).Plain)
    (hsam : ∀ t ∈ samTarget, s.ImplementedBy t (s.language.functionType params ret)) :
    (genLambda e params ret samTarget).Ensures (Step P) s fun a s' => s'.Answers s.frame.depth t a := by
  have hsam : ∀ t ∈ samTarget, t.Plain ∧ s.ImplementedBy t (s.language.functionType params ret) := by
    rintro t rfl
    exact ⟨hty, hsam t rfl⟩
  refine (genLambda_ensures hs he hparams hret hP hsam).mono fun a s' hstep ha => ?_
  have hmax : s'.maxDepth = s.maxDepth := congrArg (·.limits.maxDepth) hstep.config
  refine .of_value (ha.1.deeper ?_) ha.2 hty ht.isVoid
  rw [hmax]
  exact bodyDepth_below hdepth (Nat.lt_succ_self _)

/-- **A value of function type.** -/
theorem genFuncValue_ensures :
    (genFuncValue e t).Ensures (Step P) s fun a s' => s'.Answers s.frame.depth t a := by
  unfold genFuncValue
  split
  · exact .pure (.refl hs) (.unresolved (.inl ht))
  rename_i params ret hsignature
  obtain ⟨hparams, hret⟩ := ht.functionSignature? hsignature
  refine .get ?_
  extract_lets rest
  have hrest : ∀ (reference : Option Expr) (s₁ : Session), s.Step P s₁ →
      (∀ a ∈ reference, s.Stands noTargets 2 a ∧ a.ty? = some t) →
      (rest reference).Ensures (Step P) s₁ fun a s' => s'.Answers s.frame.depth t a := by
    intro reference s₁ h₁ hreference
    have hmax : s₁.maxDepth = s.maxDepth := congrArg (·.limits.maxDepth) h₁.config
    unfold rest
    split
    · obtain ⟨hstands, hty⟩ := hreference _ rfl
      refine .pure (.refl h₁.sound) (.of_value ((hstands.step h₁).deeper ?_) hty ht ht.isVoid)
      rw [hmax, exprDepth, if_pos hdepth]
      omega
    · rw [← h₁.frame]
      exact lambda_answers h₁.sound ht (he.step h₁) (by rw [h₁.frame, hmax]; exact hdepth) (h₁.frame ▸ hP) none hparams
        (.inl hret) (Language.plain_functionType hparams hret) fun _ h => by cases h
  refine ((Ensures.onlyIf (R := OnlyDraws) (refl_of OnlyDraws _) fun _ => .chance).drawStep hs).bind
    fun wanted s₁ h₁ _ => ?_
  split
  · refine (Ensures.pick.drawStep h₁.sound).bind fun reference s₂ h₂ hpick => ?_
    exact hrest reference s₂ (h₁.trans h₂) fun a ha => hs.stands_matchingFuncRefs ht (hpick.2.2 a ha)
  · exact .pass (hrest none s₁ h₁ fun _ h => by cases h)

/-! ## Instances -/

/-- **An instance of a class** has an argument for each of its fields. -/
theorem genInstance_ensures (hr : s.receiver? t = some (c, m)) (hkind : c.kind = .regular)
    (hfinished : s.isUnfinished c.name = false) :
    (genInstance e t c m).Ensures (Step P) s fun a s' => s'.Answers s.frame.depth t a := by
  obtain ⟨hc, hname, rfl, hobject⟩ := of_receiver? hr
  have hplain : ∀ f ∈ c.fields, (f.ty.subst t.argMap).Plain := fun f hf =>
    (hs.types _ _ (hs.field_mem hc hf)).subst_all (.argMap Ty.Plain.closed ht)
  unfold genInstance
  refine .get ?_
  extract_lets limit
  refine (nestedOperands_ensures (t := t) (fun f : FieldDecl => f.ty.subst t.argMap) hs he hdepth hP hplain
    fun f hf s₀ hs₀ he₀ hP₀ => .get (he₀.expr hs₀ (.inl (hplain f hf)) hP₀)).bind
    fun args s₁ h₁ ⟨hlength, hargs⟩ => .pure (.refl h₁.sound) ?_
  obtain ⟨hc₁, hfinished₁⟩ := h₁.finished c hc hfinished
  refine .of_operands (fun u hu => ?_) rfl (List.forall_mem_singleton.mpr (.inl ht)) (fun _ _ _ _ => trivial)
    (fun s' hl => .inr ⟨c, (hl.finished c hc₁ hfinished₁).1, hname, Ty.isBuiltin_of_isObject hobject, hkind, hlength⟩)
    hargs
  cases hu
  exact ⟨.inl ht, rfl⟩

/-! ## Closures for interfaces -/

/-- **A closure implements an interface**, if it is one of one function. -/
theorem genSamLambda_ensures (hobject : t.isObject) (hfinished : s.isUnfinished t.name = false) :
    (genSamLambda e t).Ensures (Step P) s fun r s' => ∀ a ∈ r, s'.Answers s.frame.depth t a := by
  unfold genSamLambda
  refine .get ?_
  split
  · rename_i params ret h
    obtain ⟨hparams, hret⟩ := hs.plain_samSignature? ht hobject h
    have hsam : s.ImplementedBy t (s.language.functionType params ret) := by
      obtain ⟨signature, hsignature, hparts⟩ := Option.bind_eq_some_iff.mp h
      have heq := eq_functionType_of_samSignature? hsignature
      obtain ⟨ps, r, heq⟩ := heq
      rw [heq] at hparts
      obtain ⟨rfl, rfl⟩ := Language.eq_of_functionSignature? hparts
      exact hs.implementedBy hfinished (heq ▸ hsignature)
    refine Ensures.map ((lambda_answers hs ht he hdepth hP (some t) hparams hret ht
      fun u hu => Option.some.inj hu ▸ hsam).mono fun a s' _ ha b hb => ?_)
    cases hb
    exact ha
  · exact .pure (.refl hs) nofun

end Values

/-! ## Concrete subtypes -/

/-- **A concrete subtype can be instantiated.** -/
theorem concreteSubtype_ensures (hs : s.Sound) (ht : t.Plain) :
    (concreteSubtype t).Ensures OnlyDraws s fun r _ => ∀ u ∈ r, s.Concrete u := by
  unfold concreteSubtype
  refine .get (Ensures.pick.bind fun picked s₁ h₁ hpick => ?_)
  obtain ⟨stream, rfl⟩ := h₁
  have hfound := fun u hu => hs.concrete_of_mem ht (hpick.2 u hu)
  have hfilter : ∀ o : Option Ty, (∀ u ∈ o, s.Concrete u) → ∀ u ∈ o.filter (·.isSubtype t), s.Concrete u :=
    fun o ho u hu => ho u (Option.filter_eq_some_iff.mp hu).1
  split
  · rename_i c
    obtain ⟨d, hd, hc, hkind, hfinished⟩ := (hfound _ rfl).resolve_right fun h => by cases h.plain
    cases hc
    refine ((instantiate_ensures (Sound.atStream hs stream) (hs.applicable_ctor hd) .empty nofun).bind
      fun r s₂ _ hr => .pass (.pure (refl_of OnlyDraws _) (hfilter _ fun u hu => ?_)))
    obtain ⟨x, hx, rfl⟩ := Option.map_eq_some_iff.mp (Option.mem_def.mp hu)
    obtain ⟨hplain, -, ⟨args, hargs, -⟩, -⟩ := hr x hx
    obtain ⟨m, hreceiver⟩ := hs.receiver?_eq hd hplain (.inr ⟨args, hargs⟩)
    exact ⟨hplain, d, m, hreceiver, hkind, hfinished⟩
  · rename_i hcon
    refine .pass (.pure (refl_of OnlyDraws _) (hfilter _ fun u hu => ?_))
    exact (hfound u hu).resolve_left fun ⟨d, _, h, _⟩ => hcon d.ctor (h ▸ hu)

/-! ## New values -/

section New

variable (hs : s.Sound) (ht : t.Plain) (he : s.Served e 1) (hdepth : s.frame.depth ≤ 2 * s.maxDepth)
variable (hP : P.Covers s.frame.ns)
variable (hnew : ∀ s₁ u, s.Step P s₁ → ¬s.Concrete t → s₁.Concrete u →
  (e.new u false).Ensures (Step P) s₁ fun a s' => s'.Answers s.frame.depth u a)
include hs ht he hdepth hP hnew

/-- **A value of a class type**: a closure, an instance, or a value of a subtype that has instances. -/
theorem genNewClass_ensures {samCoercion : Bool} (hobject : t.isObject) :
    (genNewClass e t samCoercion).Ensures (Step P) s fun a s' => s'.Answers s.frame.depth t a := by
  unfold genNewClass
  refine .get ?_
  split
  · exact .pure (.refl hs) (.unresolved (.inl ht))
  rename_i hfinished
  rw [Bool.not_eq_true] at hfinished
  extract_lets rest
  -- A closure is the answer; without one the receiver is looked up.
  have hrest : ∀ (closure : Option Expr) (s₁ : Session), s.Step P s₁ → s₁.isUnfinished t.name = false →
      (∀ a ∈ closure, s₁.Answers s.frame.depth t a) →
      (rest closure).Ensures (Step P) s₁ fun a s' => s'.Answers s.frame.depth t a := by
    intro closure s₁ h₁ hfinished hclosure
    have hmax : s₁.maxDepth = s.maxDepth := congrArg (·.limits.maxDepth) h₁.config
    have hdepth₁ : s₁.frame.depth ≤ 2 * s₁.maxDepth := h₁.depth_le hdepth
    have hP₁ : P.Covers s₁.frame.ns := h₁.frame ▸ hP
    unfold rest
    split
    · exact .pure (.refl h₁.sound) (hclosure _ rfl)
    refine .get ?_
    split
    · exact .pure (.refl h₁.sound) (.unresolved (.inl ht))
    rename_i c m hr
    have hname : c.name = t.name := (of_receiver? hr).2.1
    split
    · rw [← h₁.frame]
      exact genInstance_ensures h₁.sound ht (he.step h₁) hdepth₁ hP₁ hr ‹_› (hname ▸ hfinished)
    rename_i hkind
    -- The receiver cannot be built itself, so the recursion is on a subtype that can.
    have habstract : ¬s.Concrete t := fun h => by
      obtain ⟨c', m', hr', hregular, -⟩ := (h.mono h₁.sound h₁.toLeads).receiver
      rw [hr] at hr'
      cases hr'
      exact hkind hregular
    refine ((concreteSubtype_ensures h₁.sound ht).drawStep h₁.sound).bind fun sub s₂ h₂ hsub => ?_
    obtain ⟨⟨stream, rfl⟩, hsub⟩ := hsub
    split
    · rename_i u
      have hconcrete := hsub u rfl
      refine (hnew _ u (h₁.trans h₂) habstract ⟨hconcrete.plain, hconcrete.receiver⟩).mono fun a s₃ h₃ ha =>
        ha.of_request (hconcrete.plain.isVoid.trans ht.isVoid.symm) ?_
      have hmax₃ : s₃.maxDepth = s.maxDepth :=
        (congrArg (·.limits.maxDepth) (h₃.config.trans h₂.config)).trans hmax
      rw [hmax₃, exprDepth, exprDepth, if_pos hdepth, if_pos hdepth]
    · refine (genImplementation_ensures h₂.sound ((he.step h₁).step h₂) ⟨ht, fun c' m' hr' => ?_⟩).mono
        fun a s₃ h₃ ha => by rwa [h₂.frame, h₁.frame] at ha
      obtain ⟨rfl, -⟩ := Prod.mk.inj (Option.some.inj (hr.symm.trans hr'))
      exact ⟨hkind, hname ▸ hfinished⟩
  refine ((Ensures.onlyIf (R := OnlyDraws) (refl_of OnlyDraws _) fun _ => .chance).drawStep hs).bind
    fun wanted s₁ h₁ hwanted => ?_
  obtain ⟨⟨stream, rfl⟩, -⟩ := hwanted
  split
  · refine (genSamLambda_ensures h₁.sound ht (he.step h₁) (h₁.depth_le hdepth) (h₁.frame ▸ hP) hobject hfinished).bind
      fun closure s₂ h₂ hclosure => hrest closure s₂ (h₁.trans h₂) ?_ fun a ha => hclosure a ha
    unfold Session.isUnfinished
    rw [h₂.unfinished]
    exact hfinished
  · exact .pass (hrest none _ h₁ hfinished fun _ h => by cases h)

/-- **A new value of a plain type.** -/
theorem genNew_ensures {samCoercion : Bool} :
    (genNew e t samCoercion).Ensures (Step P) s fun a s' => s'.Answers s.frame.depth t a := by
  have hunresolved : (pure (Expr.unresolved t) : Gen Expr).Ensures (Step P) s
      fun a s' => s'.Answers s.frame.depth t a := .pure (.refl hs) (.unresolved (.inl ht))
  unfold genNew
  refine .get ?_
  split
  · exact hunresolved
  · exact hunresolved
  · cases ht
  · rename_i n k l b ss
    split
    · refine .pure (.refl hs) (.of_value (Stands.deeper (k := 1) ?_ exprDepth_pos) rfl ht ht.isVoid)
      exact .of_children rfl (List.forall_mem_singleton.mpr (.inl ht)) (fun _ _ _ _ => trivial)
        (fun _ _ => .inl ⟨rfl, rfl⟩) nofun
    · exact hunresolved
    · exact hunresolved
    · rename_i hany hnothing hvoid
      refine genConstant_ensures hs ht ?_ nofun hP
      cases k with
      | any => exact absurd rfl hany
      | nothing => exact absurd rfl hnothing
      | void => exact absurd rfl hvoid
      | _ => rfl
  · rename_i c args
    split
    · rename_i hbuiltin
      split
      · exact genFuncValue_ensures hs ht he hdepth hP
      extract_lets l
      split
      · rename_i hname
        have hname : c.name = s.language.arrayName ∨ c.name = s.language.arrayListName := by
          simpa only [Bool.or_eq_true, decide_eq_true_eq] using hname
        exact genArray_ensures hs ht hbuiltin ⟨s.language, hname⟩ he.ground hP
      · exact hunresolved
    · rename_i hbuiltin
      rw [Bool.not_eq_true] at hbuiltin
      exact genNewClass_ensures hs ht he hdepth hP hnew (by simp [Ty.isObject, hbuiltin])
  · exact genNewClass_ensures hs ht he hdepth hP hnew rfl

end New

end Gen

end ProgramGen

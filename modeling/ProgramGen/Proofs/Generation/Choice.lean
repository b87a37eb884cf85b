import ProgramGen.Proofs.Generation.Steps

/-!
# Types that are chosen

There is always a type to choose, and it is plain. In the scope of a class, where the bounds of the
visible parameters mention parameters of classes only, so do the types that are chosen. A type with
literals is narrowed to types with literals.
-/

namespace ProgramGen

variable {s s' : Session} {t u : Ty} {o : TypeOpts} {c : TypeCtor} {fixed m m' : Subst}
variable {l : Language} {d : ClassDecl} {p q : TypeParam} {n : String} {types args : List Ty}
variable {ps : List TypeParam} {N : String → Prop} {G : TypeParam → Prop} {ok : Variance → Prop}

/-! ## Where variables of a substituted type come from -/

theorem Ty.Occurs.trans (h : t.Occurs q) (h' : (Ty.param q).Occurs p) : t.Occurs p := by
  induction h with
  | here => exact h'
  | bound hq _ ih => exact .bound hq ih
  | wildcard _ ih => exact .wildcard ih
  | arg ha _ ih => exact .arg ha ih

/-- What occurs in a type whose outermost variables are all bound occurs in what they are bound
to. -/
theorem Ty.NamesIn.occurs_subst (ht : t.NamesIn N)
    (hm : ∀ n, N n → ∃ u, m.lookup n = some u ∧ ∀ q, u.Occurs q → G q) (h : (t.subst m).Occurs q) :
    G q := by
  induction ht with
  | @param p hp =>
    obtain ⟨n, v, b⟩ := p
    obtain ⟨u, hu, hG⟩ := hm n hp
    rw [Ty.subst, hu] at h
    exact hG q h
  | applied _ ih =>
    rw [Ty.subst, substList_eq] at h
    cases h with
    | arg ha h =>
      obtain ⟨a, ha', rfl⟩ := List.mem_map.mp ha
      exact ih a ha' h
  | _ => rw [Ty.subst] at h; cases h

/-- The outermost variables of a plain type occur in it. -/
theorem Ty.Plain.namesIn (ht : t.Plain) (h : ∀ p, t.Occurs p → N p.name) : t.NamesIn N := by
  induction ht with
  | param => exact .param (h _ .here)
  | applied _ _ _ _ _ _ _ _ _ ih => exact .applied fun a ha => ih a ha fun p hp => h p (.arg ha hp)
  | _ => constructor

/-- **What occurs in drawn arguments occurs in a candidate.** -/
theorem Filled.occurs {before : List String} (h : Filled types ∅ ps m args m')
    (hps : Telescoped before ps) (htypes : ∀ u ∈ types, u.isArgument → ∀ q, u.Occurs q → G q)
    (hm : ∀ n ∈ before, ∃ u, m.lookup n = some u ∧ ∀ q, u.Occurs q → G q) :
    ∀ a ∈ args, ∀ q, a.Occurs q → G q := by
  induction h generalizing before with
  | nil => simp
  | @cons p ps σ a as τ h _ ih =>
    have ha : ∀ q, a.Occurs q → G q := by
      cases h with
      | fixed h => cases h
      | candidate h hargument => exact htypes a h hargument
      | bound hb ht =>
        rw [ht]
        exact fun q => (hps.1 _ hb).occurs_subst hm
    refine List.forall_mem_cons.mpr ⟨ha, ih hps.2 fun n hn => ?_⟩
    rw [Subst.lookup_insert]
    split
    · exact ⟨a, rfl, ha⟩
    · rcases List.mem_cons.mp hn with rfl | hn
      · exact absurd rfl ‹_›
      · exact hm n hn

/-! ## Generic classes -/

/-- A generic class that can be applied to all that can be named; that of arrays, to ground types. -/
structure TypeCtor.Applicable (l : Language) (c : TypeCtor) : Prop extends c.IsPlain where
  telescoped : Telescoped [] c.params
  collection : c.builtin → IsCollection c.name → c = l.arrayCtor

theorem Language.applicable_arrayCtor (l : Language) : l.arrayCtor.Applicable l where
  toIsPlain := Language.HasClass.array.isPlain
  telescoped := telescoped_of_bound_eq_none Language.HasClass.array.bound_eq_none
  collection _ _ := rfl

theorem Language.applicable_functionCtor (l : Language) (n : Nat) : (l.functionCtor n).Applicable l where
  toIsPlain := (Language.HasClass.function n).isPlain
  telescoped := telescoped_of_bound_eq_none (Language.HasClass.function n).bound_eq_none
  collection _ h := by
    obtain ⟨l', h | h⟩ := h
    · exact absurd h (l.functionCtor_name_ne n (by cases l' <;> decide))
    · exact absurd h (l.functionCtor_name_ne n (by cases l' <;> decide))

theorem Session.Sound.applicable_ctor (hs : s.Sound) (hd : d ∈ s.classes) : d.ctor.Applicable l where
  toIsPlain := (hs.classes d hd).plain
  telescoped := (hs.classes d hd).telescoped
  collection h := by cases h

/-! ## Candidates -/

/-- The variances that the options leave. -/
def TypeOpts.Allows (o : TypeOpts) (v : Variance) : Prop :=
  (o.noCovariant → IsInput v) ∧ (o.noContravariant → IsOutput v)

theorem TypeOpts.allows_invariant (o : TypeOpts) : o.Allows .invariant := ⟨fun _ => nofun, fun _ => nofun⟩

namespace Session

/-- The types that can be named at a position. -/
inductive Candidate (s : Session) (o : TypeOpts) : Ty → Prop where
  | param {p : TypeParam} (hp : s.SeesParam p) (ho : o.noVariables = false) (hv : o.Allows p.variance) :
    Candidate s o (.param p)
  | cls {d : ClassDecl} (hd : d ∈ s.classes) : Candidate s o d.type
  | value {k : BuiltinKind} (hk : k ≠ .void) (hk' : k ≠ .nothing) : Candidate s o (s.language.builtin k)
  | array : Candidate s o (.constructor s.language.arrayCtor)
  | function (n : Nat) : Candidate s o (.constructor (s.language.functionCtor n))
  | void (ho : o.withVoid) : Candidate s o s.language.voidType

/-- The name of a visible parameter. -/
def SeenName (s : Session) (n : String) : Prop := ∃ p, s.SeesParam p ∧ p.name = n

/-- The bounds of visible parameters mention no variant parameter. -/
def Steady (s : Session) : Prop :=
  ∀ p, s.SeesParam p → ∀ b ∈ p.bound, ∀ q, b.Occurs q → IsInvariant q.variance

/-- A parameter that is visible, or stands in the bound of one that is. -/
def Reaches (s : Session) (q : TypeParam) : Prop := ∃ p, s.SeesParam p ∧ (Ty.param p).Occurs q

theorem candidate_of_mem_variableTypes (h : t ∈ s.variableTypes o) : s.Candidate o t := by
  unfold variableTypes at h
  split at h
  · cases h
  · obtain ⟨p, hp, rfl⟩ := List.mem_map.mp h
    obtain ⟨hp, hleft⟩ := List.mem_filter.mp hp
    obtain ⟨m, hm, hbound⟩ := Context.mem_types hp
    refine .param ⟨m, hm, hbound⟩ (by simpa using ‹¬o.noVariables›) ⟨fun ho hv => ?_, fun ho hv => ?_⟩
    · simp [ho, hv] at hleft
    · simp [ho, hv] at hleft

theorem candidate_of_mem_providedTypes (h : t ∈ s.providedTypes o) : s.Candidate o t := by
  simp only [providedTypes, List.mem_append] at h
  rcases h with (h | h) | h
  · rcases Language.mem_valueTypes_cases (List.mem_of_mem_filter h) with ⟨k, hk, hk', rfl⟩ | rfl
    · exact .value hk hk'
    · exact .array
  · split at h
    · rw [List.mem_singleton.mp h]
      exact .void ‹_›
    · cases h
  · split at h
    · cases h
    · obtain ⟨n, -, rfl⟩ := List.mem_map.mp h
      exact .function n

/-- The top type is always there. -/
theorem anyType_mem_providedTypes (s : Session) (o : TypeOpts) :
    s.language.anyType ∈ s.providedTypes o := by
  refine List.mem_append_left _ (List.mem_append_left _ (List.mem_filter.mpr ⟨?_, ?_⟩))
  · exact List.mem_append_left _ (List.mem_append_left _ List.mem_cons_self)
  · cases s.language <;> cases o.noArrays <;> decide

namespace Sound

theorem plain_param (hs : s.Sound) (hp : s.SeesParam p) : (Ty.param p).Plain := by
  obtain ⟨m, -, hp⟩ := hp
  exact (hs.typeParams m p hp).1

/-- A class that is not generic is a plain type. -/
theorem plain_simple (hs : s.Sound) (hd : d ∈ s.classes) : (Ty.simple d.name d.supertypes).Plain :=
  .simple ((hs.classes d hd).plain.supers) ((hs.classes d hd).plain.objects rfl)

/-- A candidate is a visible parameter, a ground type, a generic class, or of no values. -/
theorem candidate_cases (hs : s.Sound) (h : s.Candidate o t) :
    (∃ p, t = .param p ∧ s.SeesParam p ∧ o.noVariables = false ∧ o.Allows p.variance) ∨
      (t.Plain ∧ t.isGround) ∨ (∃ c, t = .constructor c ∧ c.Applicable s.language) ∨
      (t = s.language.voidType ∧ o.withVoid) := by
  cases h with
  | param hp ho hv => exact .inl ⟨_, rfl, hp, ho, hv⟩
  | @cls d hd =>
    unfold ClassDecl.type
    split
    · exact .inr (.inl ⟨hs.plain_simple hd, rfl⟩)
    · exact .inr (.inr (.inl ⟨_, rfl, hs.applicable_ctor hd⟩))
  | value hk =>
    exact .inr (.inl ⟨Language.plain_builtin _ hk, Language.isGround_builtin ..⟩)
  | array => exact .inr (.inr (.inl ⟨_, rfl, Language.applicable_arrayCtor _⟩))
  | function n => exact .inr (.inr (.inl ⟨_, rfl, Language.applicable_functionCtor _ n⟩))
  | void ho => exact .inr (.inr (.inr ⟨rfl, ho⟩))

/-- A candidate that can be an argument is a visible parameter or a ground type. -/
theorem candidate_argument (hs : s.Sound) (h : s.Candidate o t) (hargument : t.isArgument) :
    t.Plain ∧ ((∃ p, t = .param p ∧ s.SeesParam p ∧ o.noVariables = false ∧ o.Allows p.variance) ∨
      t.isGround) := by
  rcases hs.candidate_cases h with ⟨p, rfl, hp, ho⟩ | ⟨hplain, hground⟩ | ⟨c, rfl, -⟩ | ⟨rfl, -⟩
  · exact ⟨hs.plain_param hp, .inl ⟨p, rfl, hp, ho⟩⟩
  · exact ⟨hplain, .inr hground⟩
  · cases hargument
  · cases s.language <;> cases hargument

end Sound

end Session

theorem Ty.not_occurs_of_isGround (h : t.isGround) : ¬t.Occurs p := by
  cases t with
  | builtin | simple => exact fun hp => by cases hp
  | _ => cases h

theorem Ty.namesIn_of_isGround (h : t.isGround) : t.NamesIn N := by
  cases t with
  | builtin | simple => constructor
  | _ => cases h

namespace Gen

open Session

theorem candidateTypes_ensures (s : Session) (o : TypeOpts) :
    (candidateTypes o).Ensures OnlyDraws s fun ts _ => ts ≠ [] ∧ ∀ t ∈ ts, s.Candidate o t := by
  unfold candidateTypes
  refine .get ?_
  extract_lets params
  refine (Ensures.onlyIf (refl_of OnlyDraws s) fun _ => .chance).bind fun only s₁ h₁ honly => ?_
  split
  · rename_i hcond
    refine .pure (refl_of OnlyDraws s₁) ⟨fun hnil => ?_, fun t => candidate_of_mem_variableTypes⟩
    have := honly hcond
    rw [hnil] at this
    cases this
  · refine .pure (refl_of OnlyDraws s₁) ⟨?_, fun t ht => ?_⟩
    · exact List.append_ne_nil_of_right_ne_nil _ (List.ne_nil_of_mem (anyType_mem_providedTypes s o))
    · simp only [List.mem_append] at ht
      rcases ht with (ht | ht) | ht
      · unfold classTypes at ht
        split at ht
        · cases ht
        · obtain ⟨d, hd, rfl⟩ := List.mem_map.mp ht
          exact .cls hd
      · exact candidate_of_mem_variableTypes ht
      · exact candidate_of_mem_providedTypes ht

/-! ## Classes with arguments -/

/-- What can be expected of a type that is chosen in a session: it mentions no variable that varies,
or it is a variable of one of the variances `ok`. -/
structure Chosen (s : Session) (ok : Variance → Prop) (t : Ty) : Prop where
  plain : t.Plain
  names : t.NamesIn s.SeenName
  occurs : ∀ q, t.Occurs q → s.Reaches q
  varies : s.Steady → ∀ q, t.Occurs q → IsInvariant q.variance ∨ (t = .param q ∧ ok q.variance)

/-- Draws make no difference to what can be chosen. -/
theorem Chosen.of_atStream {stream : Stream} (h : Chosen (s.atStream stream) ok t) : Chosen s ok t :=
  ⟨h.plain, h.names, h.occurs, h.varies⟩

theorem Chosen.invariant_of_occurs (h : Chosen s IsInvariant t) (hs : s.Steady) (hq : t.Occurs q) :
    IsInvariant q.variance :=
  (h.varies hs q hq).elim id (·.2)

theorem Chosen.allows (h : Chosen s IsInvariant t) : Chosen s o.Allows t :=
  ⟨h.plain, h.names, h.occurs, fun hs _ hq => .inl (h.invariant_of_occurs hs hq)⟩

theorem Chosen.isInvariant (h : Chosen s TypeOpts.arguments.Allows t) : Chosen s IsInvariant t := by
  refine ⟨h.plain, h.names, h.occurs, fun hs q hq => .inl ?_⟩
  rcases h.varies hs q hq with hv | ⟨-, hin, hout⟩
  · exact hv
  · cases hv : q.variance with
    | invariant => rfl
    | covariant => exact absurd hv (hin rfl)
    | contravariant => exact absurd hv (hout rfl)

theorem chosen_param (hs : s.Sound) (hp : s.SeesParam p) (hv : o.Allows p.variance) :
    Chosen s o.Allows (.param p) := by
  refine ⟨hs.plain_param hp, .param ⟨p, hp, rfl⟩, fun _ hq => ⟨p, hp, hq⟩, fun hsteady q hq => ?_⟩
  rcases Ty.occurs_param.mp hq with rfl | ⟨b, hb, hq⟩
  · exact .inr ⟨rfl, hv⟩
  · exact .inl (hsteady p hp b hb q hq)

theorem chosen_ground (h : t.Plain) (hground : t.isGround) : Chosen s ok t :=
  ⟨h, Ty.namesIn_of_isGround hground, fun _ hq => absurd hq (Ty.not_occurs_of_isGround hground),
    fun _ _ hq => absurd hq (Ty.not_occurs_of_isGround hground)⟩

theorem chosen_anyType (s : Session) : Chosen s ok s.language.anyType :=
  chosen_ground (s.language.plain_builtin (k := .any) (by decide)) rfl

theorem chosen_argument (hs : s.Sound) (h : s.Candidate o t) (hargument : t.isArgument) :
    Chosen s o.Allows t := by
  obtain ⟨hplain, ⟨p, rfl, hp, -, hv⟩ | hground⟩ := hs.candidate_argument h hargument
  · exact chosen_param hs hp hv
  · exact chosen_ground hplain hground

/-- **A class applied to arguments that can be named here.** -/
theorem instantiate_ensures (hs : s.Sound) (hc : c.Applicable s.language) (hfixed : fixed.All Ty.Plain)
    (hbuiltin : c.builtin → fixed = ∅) :
    (instantiate c fixed).Ensures OnlyDraws s fun r _ => ∀ x ∈ r, x.1.Plain ∧ x.2.All Ty.Plain ∧
      (∃ args, x.1 = .applied c args ∧ args.length = c.params.length) ∧
      (fixed = ∅ → Chosen s IsInvariant x.1) := by
  unfold instantiate
  refine .get ?_
  extract_lets l isArray
  refine (candidateTypes_ensures s _).bind fun types s₁ _ ⟨_, htypes⟩ => .rand fun r stream hr x hx => ?_
  obtain ⟨t, m⟩ := x
  rw [Option.mem_def.mp hx] at hr
  obtain ⟨args, rfl, hfilled⟩ := filled_of_instantiate hr
  have hchosen : ∀ t ∈ types, t.isArgument → Chosen s IsInvariant t := fun t h ha => by
    obtain ⟨hplain, hnames, hoccurs, hvaries⟩ := chosen_argument hs (htypes t h) ha
    exact Chosen.isInvariant ⟨hplain, hnames, hoccurs, hvaries⟩
  obtain ⟨hargs, hm⟩ := hfilled.closed Ty.Plain.closed (fun t h ha => (hchosen t h ha).plain) hfixed
    hc.params .empty
  -- Arrays have one parameter without bound, and no variable can be named for it.
  have hground : c.builtin → IsCollection c.name → ∀ a ∈ args, a.isGround := by
    intro hb hcollection
    have harray := hc.collection hb hcollection
    have hfixed := hbuiltin hb
    have hno : isArray := by
      show (c.builtin && c.name == s.language.arrayName) = true
      rw [harray]
      cases s.language <;> rfl
    subst hfixed
    rw [harray] at hfilled
    cases hfilled with
    | cons h hrest =>
      cases hrest
      refine List.forall_mem_singleton.mpr ?_
      cases h with
      | fixed h => cases h
      | bound hb' => cases hb'
      | candidate h hargument =>
        obtain ⟨-, ⟨p, rfl, -, hvar, -⟩ | hground⟩ := hs.candidate_argument (htypes _ h) hargument
        · exact absurd (hno.symm.trans hvar) (by decide)
        · exact hground
  have hplain : (Ty.applied c args).Plain := hc.applied hargs hfilled.length_eq hground
  refine ⟨hplain, hm, ⟨args, rfl, hfilled.length_eq⟩, ?_⟩
  rintro rfl
  refine ⟨hplain, ?_, fun q hq => ?_, fun hsteady q hq => ?_⟩
  · exact .applied (hfilled.namesIn hc.telescoped (fun t h ha => (hchosen t h ha).names) (by simp))
  · cases hq with
    | arg ha hq =>
      exact hfilled.occurs hc.telescoped (fun t h ha => (hchosen t h ha).occurs) (by simp) _ ha q hq
  · cases hq with
    | arg ha hq =>
      exact .inl (hfilled.occurs (G := fun q => IsInvariant q.variance) hc.telescoped
        (fun t h ha _ => (hchosen t h ha).invariant_of_occurs hsteady) (by simp) _ ha q hq)

theorem instantiateOrTop_ensures (hs : s.Sound) (hc : c.Applicable s.language) :
    (instantiateOrTop c).Ensures OnlyDraws s fun t _ => Chosen s IsInvariant t := by
  unfold instantiateOrTop
  refine (instantiate_ensures hs hc .empty fun _ => rfl).bind fun r s₁ h₁ hr => ?_
  obtain ⟨stream, rfl⟩ := h₁
  split
  · exact .pure (refl_of OnlyDraws _) ((hr _ rfl).2.2.2 rfl)
  · exact .get (.pure (refl_of OnlyDraws _) (chosen_anyType s))

/-! ## Types -/

theorem Sound.atStream (hs : s.Sound) (stream : Stream) : (s.atStream stream).Sound :=
  (Step.atStream (P := .within .global) hs stream).sound

/-- **There is always a type to choose.** -/
theorem selectType_ensures (hs : s.Sound) : (selectType o).Ensures OnlyDraws s fun t _ =>
    Chosen s o.Allows t ∨ (t = s.language.voidType ∧ o.withVoid) := by
  unfold selectType
  refine (candidateTypes_ensures s o).bind fun types s₁ h₁ ⟨hne, htypes⟩ => ?_
  obtain ⟨stream₁, rfl⟩ := h₁
  refine Ensures.pick.bind fun chosen s₂ h₂ hpick => ?_
  obtain ⟨stream₂, rfl⟩ := h₂
  obtain ⟨hnone, hchosen⟩ := hpick
  have hs₂ := Sound.atStream (Sound.atStream hs stream₁) stream₂
  split
  · exact absurd (hnone rfl) hne
  · rename_i c
    have hc : c.Applicable s.language := by
      rcases hs.candidate_cases (htypes _ (hchosen _ rfl)) with
        ⟨_, h, -⟩ | ⟨-, h⟩ | ⟨_, h, hc⟩ | ⟨h, -⟩
      · cases h
      · cases h
      · cases h
        exact hc
      · cases hl : s.language <;> rw [hl] at h <;> cases h
    exact (instantiateOrTop_ensures hs₂ hc).mono fun t _ _ ht =>
      .inl ht.of_atStream.of_atStream.allows
  · rename_i t hcon
    refine .pure (refl_of OnlyDraws _) ?_
    rcases hs.candidate_cases (htypes t (hchosen t rfl)) with
      ⟨p, rfl, hp, -, hv⟩ | ⟨hplain, hground⟩ | ⟨c, rfl, -⟩ | h
    · exact .inl (chosen_param hs hp hv)
    · exact .inl (chosen_ground hplain hground)
    · exact absurd rfl (hcon c)
    · exact .inr h

/-- A type of values. -/
theorem selectType_chosen (hs : s.Sound) (ho : o.withVoid = false) :
    (selectType o).Ensures OnlyDraws s fun t _ => Chosen s o.Allows t :=
  (selectType_ensures hs).mono fun t _ _ ht => ht.resolve_right fun h => by
    rw [ho] at h
    cases h.2

/-- A type that is asked for has nothing to be made concrete. -/
theorem concretize_ensures (ht : t.Requested) :
    (concretize t).Ensures OnlyDraws s fun u _ => u = t := by
  unfold concretize
  refine .get ?_
  extract_lets top
  rcases ht with ht | ⟨l, rfl⟩
  · have hwildcards := ht.hasWildcards
    cases ht with
    | applied =>
      rw [hwildcards]
      exact .pure (refl_of OnlyDraws s) rfl
    | _ => exact .pure (refl_of OnlyDraws s) rfl
  · obtain ⟨n, k, p, ss, h⟩ := l.builtin_eq .void
    rw [Language.voidType, h]
    exact .pure (refl_of OnlyDraws s) rfl

end Gen

/-! ## Narrowing -/

/-- A type that a plain type can be narrowed to; one with literals, to one with literals. -/
structure Session.Narrows (s : Session) (t u : Ty) : Prop where
  plain : u.Plain
  constant : s.hasConstant t → s.hasConstant u ∧ (t.isApplied = false → u.isApplied = false)

namespace Session

theorem Narrows.refl (ht : t.Plain) : s.Narrows t t := ⟨ht, fun h => ⟨h, id⟩⟩

/-- A generic class that is found below a type, or a type that it can be narrowed to. -/
theorem Sound.narrows_of_mem {concreteOnly : Bool} (hs : s.Sound) (ht : t.Plain)
    (h : u ∈ findSubtypes t s.finishedClasses s.language.valueTypes true concreteOnly) :
    (∃ d ∈ s.classes, u = .constructor d.ctor) ∨ s.Narrows t u := by
  rcases List.mem_append.mp h with h | h
  · obtain ⟨d, hd, hu⟩ := List.mem_filterMap.mp h
    have hd : d ∈ s.classes := List.mem_of_mem_filter hd
    split at hu
    · cases hu
    · unfold ClassDecl.subtypeOf? at hu
      split at hu
      · have hplain := (hs.classes d hd).plain
        rcases plain_of_subtypeInstance? hplain rfl ht hu with hp | rfl
        · refine .inr ⟨hp, fun hconstant => ?_⟩
          rw [eq_constructor_of_subtypeInstance? hplain rfl ht hconstant hu] at hp
          cases hp
        · exact .inl ⟨d, hd, rfl⟩
      · obtain ⟨hsub, hu⟩ := Option.ite_none_right_eq_some.mp hu
        cases hu
        have htype : d.type = .simple d.name d.supertypes := if_pos (by
          simpa [ClassDecl.isGeneric] using ‹¬d.isGeneric›)
        rw [htype] at hsub ⊢
        refine .inr ⟨hs.plain_simple hd, fun hconstant => ?_⟩
        have := (hs.plain_simple hd).isSubtype_of_isObject rfl ht hconstant
        rw [hsub] at this
        cases this
  · obtain ⟨hb, hleft⟩ := List.mem_filter.mp h
    simp only [Bool.and_eq_true, Bool.not_eq_true'] at hleft
    rcases Language.mem_valueTypes_cases hb with ⟨k, hk, hk', rfl⟩ | rfl
    · exact .inr ⟨s.language.plain_builtin hk, fun hconstant =>
        (Language.hasConstant_of_isSubtype hk ht hconstant hleft.2 hk').imp_right fun h _ => h⟩
    · cases hleft.1.1

end Session

namespace Gen

open Session

theorem narrow_ensures (hs : s.Sound) (ht : t.Plain) :
    (narrow t).Ensures OnlyDraws s fun u _ => s.Narrows t u := by
  unfold narrow
  refine .get (Ensures.pick.bind fun chosen s₁ h₁ hpick => ?_)
  obtain ⟨stream, rfl⟩ := h₁
  -- What is drawn is a type constructor still to be instantiated, or a type that narrows as it is.
  have hfound : ∀ u ∈ chosen, (∃ d ∈ s.classes, u = .constructor d.ctor) ∨ s.Narrows t u := fun u hu =>
    hs.narrows_of_mem ht (hpick.2 u hu)
  have hself : ∀ s' : Session, (pure t : Gen Ty).Ensures OnlyDraws s' fun u _ => s.Narrows t u :=
    fun s' => .pure (refl_of OnlyDraws s') (.refl ht)
  split
  · rename_i c
    obtain ⟨d, hd, h⟩ : ∃ d ∈ s.classes, Ty.constructor c = .constructor d.ctor := by
      rcases hfound _ rfl with h | h
      · exact h
      · cases h.plain
    obtain rfl := Ty.constructor.inj h
    -- A fresh instance is kept only where it does lie below the type asked for.
    refine (instantiate_ensures (Sound.atStream hs stream) (hs.applicable_ctor hd) .empty fun _ =>
      rfl).bind fun r s₂ _ hr => ?_
    split
    · rename_i sub _
      obtain ⟨hplain, -, ⟨args, hsub, -⟩, -⟩ := hr _ rfl
      have hsub : sub = .applied d.ctor args := hsub
      refine .pure (refl_of OnlyDraws _) ?_
      split
      · rename_i hbelow
        refine ⟨hplain, fun hconstant => ?_⟩
        have := hplain.isSubtype_of_isObject (by rw [hsub]; rfl) ht hconstant
        rw [hbelow] at this
        cases this
      · exact .refl ht
    · exact hself _
  · rename_i sub hcon
    rcases hfound sub rfl with ⟨d, -, rfl⟩ | h
    · exact absurd rfl (hcon _)
    · exact .pure (refl_of OnlyDraws _) h
  · exact hself _

/-! ## Bounds -/

theorem randomVariance_ensures {wanted : Bool} :
    (randomVariance wanted).Ensures OnlyDraws s fun _ _ => True := by
  unfold randomVariance
  refine (Ensures.onlyIf (refl_of OnlyDraws s) fun _ => .coin).bind fun _ s₁ _ _ => ?_
  split
  · refine Ensures.coin.bind fun _ s₂ _ _ => ?_
    split <;> exact .pure (refl_of OnlyDraws _) trivial
  · exact .pure (refl_of OnlyDraws _) trivial

theorem Chosen.boxed (h : Chosen s ok t) : Chosen s ok t.boxed := by
  cases hp : t.isPrimitive with
  | false => rwa [Ty.boxed_eq_self hp]
  | true =>
    cases t with
    | builtin n k l p ss =>
      obtain rfl : p = true := hp
      have hk : k ≠ .void := by
        cases h.plain with
        | builtin hk => exact hk
      exact chosen_ground (l.plain_builtin hk) (l.isGround_builtin k)
    | _ => cases hp

theorem randomBound_ensures (hs : s.Sound) :
    randomBound.Ensures OnlyDraws s fun b _ => ∀ t ∈ b, Chosen s IsInvariant t := by
  unfold randomBound
  refine Ensures.chance.bind fun _ s₁ h₁ _ => ?_
  obtain ⟨stream, rfl⟩ := h₁
  split
  · refine (selectType_chosen (Sound.atStream hs stream) rfl).bind fun t s₂ _ ht =>
      .pure (refl_of OnlyDraws _) fun u hu => ?_
    obtain ⟨-, hu⟩ := Option.ite_none_left_eq_some.mp (Option.mem_def.mp hu)
    cases hu
    exact (Chosen.of_atStream ht).isInvariant.boxed
  · exact .pure (refl_of OnlyDraws _) (by simp)

end Gen

/-! ## Fresh type parameters -/

/-- The name of a type parameter, marked if it is one of a function. -/
def paramName (forFunc : Bool) (letter : String) : String := if forFunc then "F_" ++ letter else letter

theorem paramName_injective {forFunc : Bool} {a b : String} (h : paramName forFunc a = paramName forFunc b) :
    a = b := by
  cases forFunc with
  | false => exact h
  | true => exact (String.append_right_inj "F_").mp h

theorem length_of_mem_capitalLetters : ∀ letter ∈ capitalLetters, letter.toList.length = 1 := by
  decide +kernel

theorem not_isMarked_of_mem_capitalLetters (h : n ∈ capitalLetters) : ¬IsMarked n := by
  rintro ⟨letter, rfl⟩
  have := length_of_mem_capitalLetters _ h
  simp at this

/-- Type parameters that were bound with fresh letters in a session. -/
structure FreshParams (s : Session) (forFunc : Bool) (taken : List String) (ps : List TypeParam) : Prop where
  letters : ∀ p ∈ ps, ∃ letter ∈ capitalLetters, letter ∉ taken ∧ p.name = paramName forFunc letter
  distinct : (ps.map (·.name)).Nodup
  plain : ∀ p ∈ ps, (Ty.param p).Plain
  occurs : ∀ p ∈ ps, ∀ q, (Ty.param p).Occurs q → q ∈ ps ∨ s.Reaches q
  telescoped : ∀ before, (∀ p, s.SeesParam p → p.name ∈ before) → Telescoped before ps
  steady : s.Steady → ∀ p ∈ ps, ∀ b ∈ p.bound, ∀ q, b.Occurs q → IsInvariant q.variance

theorem FreshParams.nil {forFunc : Bool} {taken : List String} : FreshParams s forFunc taken [] :=
  ⟨by simp, List.nodup_nil, by simp, by simp, fun _ _ => trivial, fun _ => by simp⟩

/-- The session binds more type parameters in one scope. -/
structure Session.BindsTypes (s s' : Session) (ns : Namespace) (ps : List TypeParam) : Prop where
  types : ∀ m, (s'.context.scope m).types = (s.context.scope m).types ++ if m = ns then ps else []
  decls : ∀ m, s'.decls m = s.decls m

namespace Session

variable {P : Permit} {ns : Namespace} {forFunc withVariance : Bool} {taken : List String}

theorem BindsTypes.nil (h : s'.context = s.context) : s.BindsTypes s' ns [] :=
  ⟨fun m => by rw [h, ite_self, List.append_nil], fun m => by rw [decls_of_context h]⟩

theorem BindsTypes.trans {s₁ s₂ s₃ : Session} {ps qs : List TypeParam} (h : s₁.BindsTypes s₂ ns ps)
    (h' : s₂.BindsTypes s₃ ns qs) : s₁.BindsTypes s₃ ns (ps ++ qs) :=
  ⟨fun m => by rw [h'.types, h.types, List.append_assoc]; split <;> simp,
    fun m => (h'.decls m).trans (h.decls m)⟩

theorem bindsTypes_pushType (h : s'.context = s.context.pushType ns p) : s.BindsTypes s' ns [p] where
  types m := by
    rw [h, Context.types_pushType]
    by_cases hm : m = ns
    · rw [if_pos hm.symm, if_pos hm]
    · rw [if_neg (Ne.symm hm), if_neg hm, List.append_nil]
  decls m := by
    unfold Session.decls
    rw [h, Context.declarations_pushType]

/-- What is visible afterwards was visible, or is new. -/
theorem BindsTypes.seesParam (h : s.BindsTypes s' ns ps) (hframe : s'.frame = s.frame)
    (hq : s'.SeesParam q) : q ∈ ps ∨ s.SeesParam q := by
  obtain ⟨m, hm, hq⟩ := hq
  rw [h.types, List.mem_append] at hq
  rw [hframe] at hm
  rcases hq with hq | hq
  · exact .inr ⟨m, hm, hq⟩
  · split at hq
    · exact .inl hq
    · cases hq

end Session

namespace Gen

open Session

variable {P : Permit} {ns : Namespace} {forFunc withVariance : Bool} {taken : List String}

/-- What has to hold of the parameters that are visible in the scope of a class: no function has
them, nor those in their bounds. -/
def SeesClass (s : Session) (forFunc : Bool) : Prop :=
  s.frame.ns.className? ≠ none → forFunc = false ∧ ∀ q, s.Reaches q → ¬IsMarked q.name

/-! ### One fresh parameter -/

/-- A type parameter that is made of a fresh letter, with a bound that is chosen in the session. -/
structure FreshParam (s : Session) (forFunc : Bool) (taken : List String) (letter : String)
    (p : TypeParam) : Prop where
  capital : letter ∈ capitalLetters
  free : letter ∉ taken
  name : p.name = paramName forFunc letter
  bound : ∀ b ∈ p.bound, Chosen s IsInvariant b

section

variable {letter : String} {s₁ : Session}

theorem FreshParam.plain (h : FreshParam s forFunc taken letter p) : (Ty.param p).Plain :=
  .param fun b hb => (h.bound b hb).plain

theorem FreshParam.occurs (h : FreshParam s forFunc taken letter p) (hq : (Ty.param p).Occurs q) :
    q = p ∨ s.Reaches q := by
  rcases Ty.occurs_param.mp hq with rfl | ⟨b, hb, hq⟩
  · exact .inl rfl
  · exact .inr ((h.bound b hb).occurs q hq)

theorem FreshParam.fits (h : FreshParam s forFunc taken letter p) (hclass : SeesClass s forFunc) :
    ParamFits s.frame.ns p := by
  refine ⟨h.plain, fun hc => ?_⟩
  obtain ⟨rfl, hreach⟩ := hclass hc
  have hunmarked : ∀ q, (Ty.param p).Occurs q → ¬IsMarked q.name := by
    intro q hq
    rcases h.occurs hq with rfl | hq
    · rw [h.name]
      exact not_isMarked_of_mem_capitalLetters h.capital
    · exact hreach q hq
  exact ⟨hunmarked p .here, fun q hq _ r hr => hunmarked r (hq.trans hr)⟩

/-- No parameter whose letter is taken has the new name. -/
theorem FreshParam.name_ne (h : FreshParam s forFunc taken letter p)
    (hq : ∃ a ∈ taken, q.name = paramName forFunc a) : q.name ≠ p.name := by
  obtain ⟨a, ha, hq⟩ := hq
  intro heq
  rw [hq, h.name] at heq
  exact h.free (paramName_injective heq ▸ ha)

/-! ### The session in which it is bound -/

/-- One session binds the parameter at the end of its scope. -/
def Binds (s s₁ : Session) (p : TypeParam) : Prop := s.BindsTypes s₁ s.frame.ns [p] ∧ s₁.frame = s.frame

theorem Binds.seesParam (h : Binds s s₁ p) (hq : s₁.SeesParam q) : q = p ∨ s.SeesParam q :=
  (h.1.seesParam h.2 hq).imp_left List.mem_singleton.mp

theorem FreshParam.reaches (h : FreshParam s forFunc taken letter p) (hb : Binds s s₁ p)
    (hq : s₁.Reaches q) : q = p ∨ s.Reaches q := by
  obtain ⟨r, hr, hq⟩ := hq
  rcases hb.seesParam hr with rfl | hr
  · exact h.occurs hq
  · exact .inr ⟨r, hr, hq⟩

theorem FreshParam.steady (h : FreshParam s forFunc taken letter p) (hb : Binds s s₁ p)
    (hs : s.Steady) : s₁.Steady := by
  intro q hq b hbound
  rcases hb.seesParam hq with rfl | hq
  · exact fun _ => (h.bound b hbound).invariant_of_occurs hs
  · exact hs q hq b hbound

theorem FreshParam.seesClass (h : FreshParam s forFunc taken letter p) (hb : Binds s s₁ p)
    (hclass : SeesClass s forFunc) : SeesClass s₁ forFunc := by
  intro hc
  rw [hb.2] at hc
  obtain ⟨hforFunc, hreach⟩ := hclass hc
  refine ⟨hforFunc, fun q hq => ?_⟩
  rcases h.reaches hb hq with rfl | hq
  · exact ((h.fits hclass).2 hc).1
  · exact hreach q hq

/-- With the letter of the new parameter taken as well, the letters of all that are bound are. -/
theorem FreshParam.letters (h : FreshParam s forFunc taken letter p) (hb : Binds s s₁ p)
    (htaken : ∀ q ∈ (s.context.scope s.frame.ns).types, ∃ a ∈ taken, q.name = paramName forFunc a) :
    ∀ q ∈ (s₁.context.scope s₁.frame.ns).types, ∃ a ∈ taken ++ [letter], q.name = paramName forFunc a := by
  intro q hq
  rw [hb.2, hb.1.types, if_pos rfl, List.mem_append] at hq
  rcases hq with hq | hq
  · obtain ⟨a, ha, hq⟩ := htaken q hq
    exact ⟨a, List.mem_append_left _ ha, hq⟩
  · rw [List.mem_singleton.mp hq]
    exact ⟨letter, by simp, h.name⟩

/-- A fresh parameter goes before the fresh parameters of the session in which it is bound. -/
theorem FreshParam.cons (h : FreshParam s forFunc taken letter p) (hb : Binds s s₁ p)
    (hps : FreshParams s₁ forFunc (taken ++ [letter]) ps) : FreshParams s forFunc taken (p :: ps) where
  letters := by
    refine List.forall_mem_cons.mpr ⟨⟨letter, h.capital, h.free, h.name⟩, fun q hq => ?_⟩
    obtain ⟨a, ha, hfree, hq⟩ := hps.letters q hq
    exact ⟨a, ha, fun h => hfree (List.mem_append_left _ h), hq⟩
  distinct := by
    refine List.nodup_cons.mpr ⟨fun hmem => ?_, hps.distinct⟩
    obtain ⟨q, hq, heq⟩ := List.mem_map.mp hmem
    obtain ⟨a, -, hfree, hqa⟩ := hps.letters q hq
    have ha : a = letter := paramName_injective (hqa.symm.trans (heq.trans h.name))
    exact hfree (List.mem_append_right _ (List.mem_singleton.mpr ha))
  plain := List.forall_mem_cons.mpr ⟨h.plain, hps.plain⟩
  occurs := by
    refine List.forall_mem_cons.mpr ⟨fun q hq => ?_, fun r hr q hq => ?_⟩
    · exact (h.occurs hq).imp_left fun heq => List.mem_cons.mpr (.inl heq)
    · rcases hps.occurs r hr q hq with hq | hq
      · exact .inl (List.mem_cons_of_mem _ hq)
      · exact (h.reaches hb hq).imp_left fun heq => List.mem_cons.mpr (.inl heq)
  telescoped before hbefore := by
    refine ⟨fun b hmem => (h.bound b hmem).names.mono fun n hn => ?_, hps.telescoped _ fun q hq => ?_⟩
    · obtain ⟨q, hq, rfl⟩ := hn
      exact hbefore q hq
    · rcases hb.seesParam hq with rfl | hq
      · exact List.mem_cons_self
      · exact List.mem_cons_of_mem _ (hbefore q hq)
  steady hs := List.forall_mem_cons.mpr
    ⟨fun b hmem _ => (h.bound b hmem).invariant_of_occurs hs, hps.steady (h.steady hb hs)⟩

end

/-- **Fresh type parameters are bound** at the end of the current scope. -/
theorem freshTypeParams_ensures {k : Nat} (hs : s.Sound) (hP : P.scopes s.frame.ns)
    (hmaking : P.making s.frame.ns) (hns : s.frame.ns ≠ .global) (hown : ∀ c ∈ s.classes, c.scope ≠ s.frame.ns)
    (hclass : SeesClass s forFunc)
    (htaken : ∀ q ∈ (s.context.scope s.frame.ns).types, ∃ letter ∈ taken, q.name = paramName forFunc letter) :
    (freshTypeParams withVariance forFunc k taken).Ensures (Step P) s fun ps s' =>
      FreshParams s forFunc taken ps ∧ s.BindsTypes s' s.frame.ns ps := by
  -- On the number of parameters still to make, for any letters taken so far.
  induction k generalizing s taken with
  | zero =>
    rw [freshTypeParams]
    exact .pure (.refl hs) ⟨.nil, .nil rfl⟩
  | succ k ih =>
    rw [freshTypeParams]
    refine ((Ensures.draw (r := freshLetter taken)).drawStep hs).bind fun letter s₁ h₁ hletter => ?_
    obtain ⟨⟨stream₁, rfl⟩, hletter⟩ := hletter
    replace hletter := (canGive_freshLetter hletter).1
    split
    -- All letters are taken, so the list ends here.
    · exact .pure (.refl h₁.sound) ⟨.nil, .nil rfl⟩
    · rename_i letter
      obtain ⟨hcapital, hfree⟩ := hletter letter rfl
      refine (randomVariance_ensures.drawStep h₁.sound).bind fun variance s₂ h₂ hv => ?_
      obtain ⟨⟨stream₂, rfl⟩, -⟩ := hv
      refine ((randomBound_ensures h₂.sound).drawStep h₂.sound).bind fun bound s₃ h₃ hb => ?_
      obtain ⟨⟨stream₃, rfl⟩, hbound⟩ := hb
      extract_lets p
      have hp : FreshParam s forFunc taken letter p :=
        ⟨hcapital, hfree, rfl, fun b hb => (hbound b hb).of_atStream.of_atStream⟩
      refine .get ((addType_step h₃.sound h₃.sound.here hP hmaking hns hown (hp.fits hclass)
        fun q hq => hp.name_ne (htaken q hq)).bind fun _ s₄ h₄ heq => ?_)
      have hframe : s₄.frame = s.frame := h₄.frame
      -- The parameter is bound before the next one is made, so the rest is made in a scope that
      -- holds it.
      have hbinds : Binds s s₄ p := by
        refine ⟨bindsTypes_pushType ?_, hframe⟩
        rw [heq]
        rfl
      have hown₄ : ∀ c ∈ s₄.classes, c.scope ≠ s₄.frame.ns := by
        rw [hframe, classes_of_decls fun m => hbinds.1.decls m]
        exact hown
      refine (ih h₄.sound (hframe ▸ hP) (hframe ▸ hmaking) (hframe ▸ hns) hown₄ (hp.seesClass hbinds hclass)
        (hp.letters hbinds htaken)).bind fun ps s₅ h₅ hps => ?_
      obtain ⟨hfresh, hbinds'⟩ := hps
      rw [hframe] at hbinds'
      exact .pure (.refl h₅.sound) ⟨hp.cons hbinds hfresh, hbinds.1.trans hbinds'⟩

theorem genTypeParams_ensures {count : Option Nat} (hs : s.Sound) (hP : P.scopes s.frame.ns)
    (hmaking : P.making s.frame.ns) (hns : s.frame.ns ≠ .global) (hown : ∀ c ∈ s.classes, c.scope ≠ s.frame.ns)
    (hclass : SeesClass s forFunc)
    (hempty : (s.context.scope s.frame.ns).types = []) :
    (genTypeParams count withVariance taken forFunc).Ensures (Step P) s fun ps s' =>
      FreshParams s forFunc taken ps ∧ s.BindsTypes s' s.frame.ns ps := by
  unfold genTypeParams
  refine ((Ensures.onlyIf (refl_of OnlyDraws s) fun _ => .coin).drawStep hs).bind fun skip s₁ h₁ hskip => ?_
  obtain ⟨⟨stream₁, rfl⟩, -⟩ := hskip
  split
  · exact .pure (.refl h₁.sound) ⟨.nil, .nil rfl⟩
  · refine .get ?_
    extract_lets least
    refine (Ensures.sizeBetween.drawStep h₁.sound).bind fun k s₂ h₂ hk => ?_
    obtain ⟨⟨stream₂, rfl⟩, -⟩ := hk
    refine (freshTypeParams_ensures h₂.sound hP hmaking hns hown hclass fun q hq => ?_).mono fun ps s₃ _ h => ?_
    · have hq : q ∈ (s.context.scope s.frame.ns).types := hq
      rw [hempty] at hq
      cases hq
    · exact ⟨⟨h.1.letters, h.1.distinct, h.1.plain, h.1.occurs, h.1.telescoped, h.1.steady⟩,
        h.2.types, h.2.decls⟩

/-- Type parameters that are given are bound as they are. -/
theorem addTypes_ensures {ps : List TypeParam} (hs : s.Sound) (hopened : s.Opened ns) (hP : P.scopes ns)
    (hmaking : P.making ns) (hns : ns ≠ .global) (hown : ∀ c ∈ s.classes, c.scope ≠ ns) (hps : ∀ p ∈ ps, ParamFits ns p)
    (hdistinct : (((s.context.scope ns).types ++ ps).map (·.name)).Nodup) :
    (ps.forM (addType ns)).Ensures (Step P) s fun _ s' => s.BindsTypes s' ns ps := by
  induction ps generalizing s with
  | nil => exact .pure (.refl hs) (.nil rfl)
  | cons p ps ih =>
    obtain ⟨hp, hps⟩ := List.forall_mem_cons.mp hps
    have hnot : ∀ q ∈ (s.context.scope ns).types, q.name ≠ p.name := by
      intro q hq heq
      rw [List.map_append, List.nodup_append] at hdistinct
      exact hdistinct.2.2 _ (List.mem_map_of_mem hq) _ List.mem_cons_self heq
    refine (addType_step hs hopened hP hmaking hns hown hp hnot).bind fun _ s₁ h₁ heq => ?_
    have hbinds : s.BindsTypes s₁ ns [p] := bindsTypes_pushType (by rw [heq]; rfl)
    have hown₁ : ∀ c ∈ s₁.classes, c.scope ≠ ns := by
      rw [classes_of_decls fun m => hbinds.decls m]
      exact hown
    refine (ih h₁.sound (opened_mono h₁.toLeads hopened) hown₁ hps ?_).mono fun _ s₂ _ h => hbinds.trans h
    rw [hbinds.types, if_pos rfl, List.append_assoc]
    exact hdistinct

theorem selectClassKind_ensures {needsField : Bool} :
    (selectClassKind needsField).Ensures OnlyDraws s fun k _ => needsField → k ≠ .interface := by
  unfold selectClassKind
  extract_lets kinds
  refine Ensures.pick.bind fun chosen s₁ _ hpick => .pure (refl_of OnlyDraws s₁) fun hneeds => ?_
  rintro hinterface
  cases chosen with
  | none => cases hinterface
  | some k =>
    have hmem := hpick.2 k rfl
    have hk : k = .interface := hinterface
    rw [show kinds = [.regular, .abstract] from if_pos hneeds, hk] at hmem
    cases hmem with
    | tail _ h => cases h with
      | tail _ h => cases h

end Gen

end ProgramGen

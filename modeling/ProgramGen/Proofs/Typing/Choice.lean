import ProgramGen.Proofs.Typing.Steps
import ProgramGen.Synthesis.TypeChoice

/-!
# Chosen types

Whatever type is chosen at a position is over the classes of the session, and where a type is
narrowed, below the type it was. Types that are chosen as arguments mention only parameters that
are visible and do not vary.
-/

namespace ProgramGen

variable {s s' : Session} {t u : Ty} {o : TypeOpts} {c : TypeCtor} {fixed m : Subst}
variable {l : Language} {d : ClassDecl}

/-! ## Candidates -/

/-- The types that values are declared with are builtin types, and the class of arrays. -/
theorem Language.mem_valueTypes (h : t ∈ l.valueTypes) :
    (∃ k, t = l.builtin k) ∨ t = .constructor l.arrayCtor := by
  simp only [valueTypes, numberTypes, List.mem_append, List.mem_cons, List.not_mem_nil,
    or_false, List.map_cons, List.map_nil] at h
  rcases h with ((rfl | rfl) | rfl | rfl | rfl | rfl | rfl | rfl) | rfl | rfl | rfl | rfl
  · exact .inl ⟨.any, rfl⟩
  · exact .inl ⟨.number, rfl⟩
  · exact .inl ⟨.integer, rfl⟩
  · exact .inl ⟨.short, rfl⟩
  · exact .inl ⟨.long, rfl⟩
  · exact .inl ⟨.byte, rfl⟩
  · exact .inl ⟨.float, rfl⟩
  · exact .inl ⟨.double, rfl⟩
  · exact .inl ⟨.char, rfl⟩
  · exact .inl ⟨.string, rfl⟩
  · exact .inl ⟨.boolean, rfl⟩
  · exact .inr rfl

theorem Language.namesIn_builtin {N : String → Prop} (l : Language) (k : BuiltinKind) :
    (l.builtin k).NamesIn N := by
  obtain ⟨n, k', p, ss, h⟩ := l.builtin_eq k
  rw [h]
  exact .builtin

theorem Ty.NamesIn.boxed {N : String → Prop} (h : t.NamesIn N) : t.boxed.NamesIn N := by
  cases h with
  | @builtin n k l p ss =>
    cases p with
    | false => exact .builtin
    | true => exact Language.namesIn_builtin l k
  | param h => exact .param h
  | applied h => exact .applied h
  | _ => constructor

theorem Language.offered_valueTypes (h : t ∈ s.language.valueTypes) : t.Offered s.vocabulary := by
  rcases mem_valueTypes h with ⟨k, rfl⟩ | rfl
  · exact .inl (s.over_builtin k)
  · exact .inr ⟨_, .inl .array, rfl⟩

/-- A type parameter that is bound around the current scope. -/
def Session.SeesParam (s : Session) (p : TypeParam) : Prop :=
  ∃ m ∈ s.frame.ns.lineage, p ∈ (s.context.scope m).types

/-- The names of all visible parameters. -/
theorem Session.exists_seenNames (s : Session) :
    ∃ names : List String, ∀ p, s.SeesParam p → p.name ∈ names :=
  ⟨s.frame.ns.lineage.flatMap fun m => (s.context.scope m).types.map (·.name),
    fun _ ⟨m, hm, hp⟩ => List.mem_flatMap.mpr ⟨m, hm, List.mem_map_of_mem hp⟩⟩

/-- The name of a visible parameter that does not vary. -/
def Session.InvariantName (s : Session) (n : String) : Prop :=
  ∃ p, s.SeesParam p ∧ p.variance = .invariant ∧ p.name = n

/-- A class as a type, bare if it is generic. -/
theorem Session.WellTyped.offered_type (hs : s.WellTyped) (hd : d ∈ s.classes) :
    d.type.Offered s.vocabulary := by
  unfold ClassDecl.type
  split
  · exact .inl (.simple fun t ht => hs.super_over hd ht)
  · rename_i hgeneric
    exact .inr ⟨_, .inr ⟨d, hd, by simpa [ClassDecl.isGeneric] using hgeneric, rfl⟩, rfl⟩

/-- A candidate of the language itself. -/
theorem Session.providedTypes_cases (h : t ∈ s.providedTypes o) :
    t.Offered s.vocabulary ∧ ∀ N, t.NamesIn N := by
  simp only [providedTypes, List.mem_append] at h
  rcases h with (h | h) | h
  · have hmem := List.mem_of_mem_filter h
    refine ⟨Language.offered_valueTypes hmem, fun N => ?_⟩
    rcases Language.mem_valueTypes hmem with ⟨k, rfl⟩ | rfl
    · exact Language.namesIn_builtin _ k
    · exact .constructor
  · split at h
    · rw [List.mem_singleton.mp h]
      exact ⟨.inl (s.over_builtin .void), fun N => Language.namesIn_builtin _ .void⟩
    · cases h
  · split at h
    · cases h
    · obtain ⟨n, -, rfl⟩ := List.mem_map.mp h
      exact ⟨.inr ⟨_, .inl (.function n), rfl⟩, fun N => .constructor⟩

/-- A visible parameter that `o` leaves. -/
theorem Session.variableTypes_cases (hs : s.WellTyped) (h : t ∈ s.variableTypes o) :
    t.Over s.vocabulary ∧ (o.noCovariant → o.noContravariant → t.NamesIn s.InvariantName) := by
  unfold variableTypes at h
  split at h
  · cases h
  · obtain ⟨p, hp, rfl⟩ := List.mem_map.mp h
    obtain ⟨hp, hleft⟩ := List.mem_filter.mp hp
    obtain ⟨m, hm, hbound⟩ := Context.mem_types hp
    refine ⟨hs.over_params m p hbound, fun hco hcontra => .param ⟨p, ⟨m, hm, hbound⟩, ?_, rfl⟩⟩
    cases hv : p.variance <;> simp_all

namespace Gen

/-- **The types that can be named at a position.** -/
theorem candidateTypes_typed (hs : s.WellTyped) :
    (candidateTypes o).Yields Session.OnlyDraws s fun ts _ => ∀ t ∈ ts, t.Offered s.vocabulary ∧
      (o.noCovariant → o.noContravariant → t.NamesIn s.InvariantName) := by
  unfold candidateTypes
  refine .get ?_
  extract_lets params
  have hparams : ∀ t ∈ params, t.Offered s.vocabulary ∧
      (o.noCovariant → o.noContravariant → t.NamesIn s.InvariantName) := fun t ht =>
    (Session.variableTypes_cases hs ht).imp_left .inl
  refine (Yields.onlyIf Yields.chance).bind fun _ s₁ _ _ => ?_
  split
  · exact .pure hparams
  · refine .pure fun t ht => ?_
    simp only [List.mem_append] at ht
    rcases ht with (ht | ht) | ht
    · unfold Session.classTypes at ht
      split at ht
      · cases ht
      · obtain ⟨d, hd, rfl⟩ := List.mem_map.mp ht
        refine ⟨hs.offered_type hd, fun _ _ => ?_⟩
        unfold ClassDecl.type
        split
        · exact .simple
        · exact .constructor
    · exact hparams t ht
    · obtain ⟨hoffered, hnames⟩ := Session.providedTypes_cases ht
      exact ⟨hoffered, fun _ _ => hnames _⟩

end Gen

/-! ## Generic classes -/

/-- The parameters of the language's own classes have no bounds. -/
theorem Language.HasClass.bound_eq_none (hc : l.HasClass c) : ∀ p ∈ c.params, p.bound = none := by
  intro p hp
  cases hc with
  | function n =>
    simp only [functionCtor, List.mem_append, List.mem_map, List.mem_singleton] at hp
    rcases hp with ⟨i, -, rfl⟩ | rfl <;> rfl
  | _ =>
    rw [List.mem_singleton.mp hp]

theorem telescoped_of_bound_eq_none {before : List String} {ps : List TypeParam}
    (h : ∀ p ∈ ps, p.bound = none) : Telescoped before ps := by
  induction ps generalizing before with
  | nil => trivial
  | cons p ps ih =>
    refine ⟨fun b hb => ?_, ih fun q hq => h q (List.mem_cons_of_mem _ hq)⟩
    rw [h p List.mem_cons_self] at hb
    cases hb

namespace Session.WellTyped

/-- The parameters of a generic class of a session are over it. -/
theorem param_over (hs : s.WellTyped) (hc : s.HasClass c) :
    ∀ p ∈ c.params, (Ty.param p).Over s.vocabulary := by
  rcases hc with hc | ⟨d, hd, -, rfl⟩
  · refine fun p hp => .param fun b hb => ?_
    rw [hc.bound_eq_none p hp] at hb
    cases hb
  · exact fun p hp => hs.typeParam_over hd hp

theorem telescoped (hs : s.WellTyped) (hc : s.HasClass c) : Telescoped [] c.params := by
  rcases hc with hc | ⟨d, hd, -, rfl⟩
  · exact telescoped_of_bound_eq_none hc.bound_eq_none
  · exact (hs.headers d hd).telescoped

end Session.WellTyped

namespace Gen

/-- **A class applied to arguments that can be named here.** -/
theorem instantiate_typed (hs : s.WellTyped) (hc : s.HasClass c) (hfixed : fixed.Over s.vocabulary) :
    (instantiate c fixed).Yields Session.OnlyDraws s fun r _ => ∀ x ∈ r, x.1.Over s.vocabulary ∧
      x.2.Over s.vocabulary ∧ (fixed = ∅ → x.1.NamesIn s.InvariantName) := by
  unfold instantiate
  refine .get ?_
  extract_lets l isArray
  refine (candidateTypes_typed hs).bind fun types s₁ _ htypes => .rand fun r stream hr x hx => ?_
  rw [Option.mem_def.mp hx] at hr
  obtain ⟨ts, ht, hfilled⟩ := filled_of_instantiate (t := x.1) (m := x.2) hr
  have hoffered : ∀ t ∈ types, t.Offered s.vocabulary := fun t h => (htypes t h).1
  obtain ⟨hts, hm⟩ := hfilled.over hoffered hfixed (hs.param_over hc) .empty
  rw [ht]
  refine ⟨.applied hc hfilled.length_eq hts, hm, ?_⟩
  rintro rfl
  exact .applied (hfilled.namesIn (hs.telescoped hc) (fun t h _ => (htypes t h).2 rfl rfl) (by simp))

theorem instantiateOrTop_typed (hs : s.WellTyped) (hc : s.HasClass c) :
    (instantiateOrTop c).Yields Session.OnlyDraws s fun t _ =>
      t.Over s.vocabulary ∧ t.NamesIn s.InvariantName := by
  unfold instantiateOrTop
  refine (instantiate_typed hs hc .empty).bind fun r s₁ h₁ hr => ?_
  split
  · obtain ⟨hover, -, hnames⟩ := hr _ rfl
    exact .pure ⟨hover, hnames rfl⟩
  · obtain ⟨stream, rfl⟩ := h₁
    exact .get (.pure ⟨s.over_builtin .any, Language.namesIn_builtin _ .any⟩)

/-- **A type that is chosen is over the session.** -/
theorem selectType_typed (hs : s.WellTyped) :
    (selectType o).Yields Session.OnlyDraws s fun t _ => t.Over s.vocabulary ∧
      (o.noCovariant → o.noContravariant → t.NamesIn s.InvariantName) := by
  unfold selectType
  refine (candidateTypes_typed hs).bind fun types s₁ h₁ htypes => ?_
  obtain ⟨stream₁, rfl⟩ := h₁
  refine Yields.pick.bind fun chosen s₂ h₂ hchosen => ?_
  obtain ⟨stream₂, rfl⟩ := h₂
  split
  · exact .get .throw
  · rename_i c
    have hc : s.HasClass c := (htypes _ (hchosen _ rfl)).1.mem_classes
    have hs₂ := (hs.atStream stream₁).atStream stream₂
    exact (instantiateOrTop_typed hs₂ hc).mono fun t s₃ _ ht => ⟨ht.1, fun _ _ => ht.2⟩
  · rename_i t hcon
    obtain ⟨hoffered, hnames⟩ := htypes t (hchosen t rfl)
    rcases hoffered with hover | ⟨c, -, rfl⟩
    · exact .pure ⟨hover, hnames⟩
    · exact absurd rfl (hcon c)

/-- A type over the session has nothing to be made concrete. -/
theorem concretize_typed (ht : t.Over s.vocabulary) :
    (concretize t).Yields Session.OnlyDraws s fun u _ => u = t := by
  have hwild : t.hasWildcards = false := ht.hasWildcards
  unfold concretize
  refine .get ?_
  extract_lets top
  cases ht with
  | constructor hbare => exact hbare.elim
  | applied hc hlength hargs =>
    rw [hwild]
    exact .pure rfl
  | _ => exact .pure rfl

end Gen

/-! ## Narrowing -/

/-- A class that is found below a type. -/
theorem Session.WellTyped.foundBelow (hs : s.WellTyped) (hd : d ∈ s.classes)
    (ht : t.Over s.vocabulary) (h : d.subtypeOf? t = some u) : t.FoundBelow s.vocabulary u := by
  unfold ClassDecl.subtypeOf? at h
  split at h
  · have hc : s.HasClass d.ctor := .inr ⟨d, hd, ‹_›, rfl⟩
    exact foundBelow_of_subtypeInstance? hs.table hc (hs.param_over hc) ht h
  · obtain ⟨hsub, h⟩ := Option.ite_none_right_eq_some.mp h
    cases h
    rcases hs.offered_type hd with hover | ⟨c, hc, h⟩
    · exact .inr ⟨hover, hsub⟩
    · exact .inl ⟨c, hc, h⟩

/-- **What is found below a type is below it**, once it has its arguments. -/
theorem Session.WellTyped.foundBelow_of_mem {builtins : List Ty} {withSelf concreteOnly : Bool}
    (hs : s.WellTyped) (ht : t.Over s.vocabulary)
    (hbuiltins : ∀ b ∈ builtins, b.Offered s.vocabulary)
    (h : u ∈ findSubtypes t s.finishedClasses builtins withSelf concreteOnly) :
    t.FoundBelow s.vocabulary u := by
  rcases List.mem_append.mp h with h | h
  · obtain ⟨d, hd, hu⟩ := List.mem_filterMap.mp h
    split at hu
    · cases hu
    · exact hs.foundBelow (List.mem_of_mem_filter hd) ht hu
  · obtain ⟨hb, hleft⟩ := List.mem_filter.mp h
    simp only [Bool.and_eq_true, Bool.not_eq_true'] at hleft
    rcases hbuiltins u hb with hover | ⟨c, hc, rfl⟩
    · exact .inr ⟨hover, hleft.2⟩
    · exact .inl ⟨c, hc, rfl⟩

namespace Gen

/-- **A narrowed type is below the type it was.** -/
theorem narrow_typed (hs : s.WellTyped) (ht : t.Over s.vocabulary) :
    (narrow t).Yields Session.OnlyDraws s fun u _ => u.Over s.vocabulary ∧ u.isSubtype t := by
  unfold narrow
  refine .get (Yields.pick.bind fun chosen s₁ h₁ hchosen => ?_)
  obtain ⟨stream, rfl⟩ := h₁
  have hself : t.Over s.vocabulary ∧ t.isSubtype t := ⟨ht, Ty.isSubtype_refl t⟩
  have hfound : ∀ u ∈ chosen, t.FoundBelow s.vocabulary u := fun u hu =>
    hs.foundBelow_of_mem ht (fun _ => Language.offered_valueTypes) (hchosen u hu)
  split
  · rename_i c
    have hc : s.HasClass c := (hfound _ rfl).mem_classes
    refine (instantiate_typed (hs.atStream stream) hc .empty).bind fun r s₂ _ hr => ?_
    split
    · rename_i sub _
      refine .pure ?_
      split
      · exact ⟨(hr _ rfl).1, ‹_›⟩
      · exact hself
    · exact .pure hself
  · rename_i sub hcon
    rcases hfound sub rfl with ⟨c, -, rfl⟩ | h
    · exact absurd rfl (hcon c)
    · exact .pure h
  · exact .pure hself

/-! ## Fresh type parameters -/

theorem randomVariance_yields {wanted : Bool} :
    (randomVariance wanted).Yields Session.OnlyDraws s fun _ _ => True := by
  unfold randomVariance
  refine (Yields.onlyIf Yields.coin).bind fun _ s₁ _ _ => ?_
  split
  · refine Yields.coin.bind fun _ s₂ _ _ => ?_
    split <;> exact .pure trivial
  · exact .pure trivial

theorem randomBound_typed (hs : s.WellTyped) :
    randomBound.Yields Session.OnlyDraws s fun b _ => ∀ t ∈ b, t.Over s.vocabulary ∧
      t.NamesIn s.InvariantName := by
  unfold randomBound
  refine Yields.chance.bind fun _ s₁ h₁ _ => ?_
  obtain ⟨stream, rfl⟩ := h₁
  split
  · refine (selectType_typed (hs.atStream stream)).bind fun t s₂ _ ht => .pure fun u hu => ?_
    obtain ⟨-, hu⟩ := Option.ite_none_left_eq_some.mp (Option.mem_def.mp hu)
    cases hu
    exact ⟨ht.1.boxed, (ht.2 rfl rfl).boxed⟩
  · exact .pure (by simp)

/-- **Fresh type parameters are a telescope** over those that are visible, at the end of the current
scope. -/
theorem freshTypeParams_typed {withVariance forFunc : Bool} {n : Nat} {taken before : List String}
    (hs : s.WellTyped) (hns : ¬s.Reserved s.frame.ns)
    (hbefore : ∀ p, s.SeesParam p → p.name ∈ before) :
    (freshTypeParams withVariance forFunc n taken).Yields Session.Typed s fun ps s' =>
      Telescoped before ps ∧ (∀ p ∈ ps, (Ty.param p).Over s'.vocabulary) ∧
      ∀ m, (s'.context.scope m).types =
        (s.context.scope m).types ++ if m = s.frame.ns then ps else [] := by
  induction n generalizing s taken before with
  | zero =>
    rw [freshTypeParams]
    exact .pure ⟨trivial, by simp, by simp⟩
  | succ n ih =>
    rw [freshTypeParams]
    refine Yields.bind (Q := fun _ s' => s.OnlyDraws s') (.rand fun _ stream _ => ⟨stream, rfl⟩)
      fun letter s₁ _ h₁ => ?_
    obtain ⟨stream₁, rfl⟩ := h₁
    split
    · exact .pure ⟨trivial, by simp, by simp [Session.atStream]⟩
    · rename_i letter
      refine (Yields.of_onlyDraws randomVariance_yields).bind fun variance s₂ _ h₂ => ?_
      obtain ⟨⟨stream₂, rfl⟩, -⟩ := h₂
      have hs₂ := (hs.atStream stream₁).atStream stream₂
      refine (Yields.of_onlyDraws (randomBound_typed hs₂)).bind fun bound s₃ _ h₃ => ?_
      obtain ⟨⟨stream₃, rfl⟩, hbound⟩ := h₃
      extract_lets p
      have hp : (Ty.param p).Over s.vocabulary := .param fun b hb => (hbound b hb).1
      have hs₃ := hs₂.atStream stream₃
      have hadd : (addType s.frame.ns p).Yields Session.Typed
          (((s.atStream stream₁).atStream stream₂).atStream stream₃) _ := addType_typed hns hp
      refine .get (hadd.bind fun _ s₄ h₄ heq => ?_)
      obtain ⟨hgrows₄, hs₄⟩ := h₄ hs₃
      have hframe : s₄.frame = s.frame := by
        rw [heq]
        rfl
      have hlast : ∀ m, (s₄.context.scope m).types =
          (s.context.scope m).types ++ if m = s.frame.ns then [p] else [] := by
        intro m
        rw [heq, Session.context_withContext, Context.types_pushType]
        by_cases hm : m = s.frame.ns
        · rw [if_pos hm.symm, if_pos hm]
          rfl
        · rw [if_neg (Ne.symm hm), if_neg hm, List.append_nil]
          rfl
      have hns₄ : ¬s₄.Reserved s₄.frame.ns := by
        rw [heq]
        exact hns
      have hbefore₄ : ∀ q, s₄.SeesParam q → q.name ∈ p.name :: before := by
        rintro q ⟨m, hm, hq⟩
        rw [hlast, List.mem_append] at hq
        rw [hframe] at hm
        rcases hq with hq | hq
        · exact List.mem_cons_of_mem _ (hbefore q ⟨m, hm, hq⟩)
        · split at hq
          · rw [List.mem_singleton.mp hq]
            exact List.mem_cons_self
          · cases hq
      refine (ih hs₄ hns₄ hbefore₄).bind fun ps s₅ h₅ ⟨htelescope, hover, htypes⟩ => ?_
      refine .pure ⟨⟨fun b hb => ?_, htelescope⟩, ?_, fun m => ?_⟩
      · exact (hbound b hb).2.mono fun n ⟨q, hq, _, hn⟩ => hn ▸ hbefore q hq
      · exact List.forall_mem_cons.mpr ⟨(h₅ hs₄).1.over (hgrows₄.over hp), hover⟩
      · rw [htypes, hlast, hframe, List.append_assoc]
        split <;> simp

theorem genTypeParams_typed {count : Option Nat} {withVariance forFunc : Bool}
    {taken before : List String} (hs : s.WellTyped) (hns : ¬s.Reserved s.frame.ns)
    (hbefore : ∀ p, s.SeesParam p → p.name ∈ before) :
    (genTypeParams count withVariance taken forFunc).Yields Session.Typed s fun ps s' =>
      Telescoped before ps ∧ (∀ p ∈ ps, (Ty.param p).Over s'.vocabulary) ∧
      ∀ m, (s'.context.scope m).types =
        (s.context.scope m).types ++ if m = s.frame.ns then ps else [] := by
  unfold genTypeParams
  refine Yields.bind (Yields.of_onlyDraws (Yields.onlyIf Yields.coin)) fun skip s₁ _ h₁ => ?_
  obtain ⟨⟨stream₁, rfl⟩, -⟩ := h₁
  split
  · exact .pure ⟨trivial, by simp, by simp [Session.atStream]⟩
  · refine .get (Yields.bind (Yields.of_onlyDraws Yields.sizeBetween) fun n s₂ _ h₂ => ?_)
    obtain ⟨⟨stream₂, rfl⟩, -⟩ := h₂
    exact freshTypeParams_typed ((hs.atStream stream₁).atStream stream₂) hns hbefore

/-- Type parameters that are given are registered as they are. -/
theorem addTypes_typed {ns : Namespace} {ps : List TypeParam} (hs : s.WellTyped)
    (hns : ¬s.Reserved ns) (hps : ∀ p ∈ ps, (Ty.param p).Over s.vocabulary) :
    (ps.forM (addType ns)).Yields Session.Typed s fun _ s' =>
      ∀ m, (s'.context.scope m).types =
        (s.context.scope m).types ++ if m = ns then ps else [] := by
  induction ps generalizing s with
  | nil => exact .pure (by simp)
  | cons p ps ih =>
    refine (addType_typed hns (hps p List.mem_cons_self)).bind fun _ s₁ h₁ heq => ?_
    obtain ⟨hgrows, hs₁⟩ := h₁ hs
    have hps₁ : ∀ q ∈ ps, (Ty.param q).Over s₁.vocabulary := fun q hq =>
      hgrows.over (hps q (List.mem_cons_of_mem _ hq))
    refine (ih hs₁ (fun h => hns (hgrows.reserved h)) hps₁).mono fun _ s₂ _ htypes m => ?_
    rw [htypes, heq, Session.context_withContext, Context.types_pushType]
    by_cases hm : m = ns
    · simp [hm]
    · simp [hm, Ne.symm hm]

end Gen

end ProgramGen

import ProgramGen.Proofs.Generation.Override

/-!
# The body of a class

The members of a class while it is made: new fields and functions, and those that override members of
the superclass. Each of them is one step; a scope of a method is in use only if the class has the method.
-/

namespace ProgramGen

open Session

variable {s s' s₀ s₁ s₂ : Session} {t u : Ty} {e : Engine} {P : Permit} {n : String} {c d h : ClassDecl}
variable {f g : FuncDecl} {m : Subst} {p q : TypeParam} {N N' : String → Prop} {classIsFinal : Bool}

/-- What the members of a class add to: its scope, and those of the methods that `N` holds of. -/
def Permit.body (scope : Namespace) (N : String → Prop) : Permit where
  scopes m := m = scope ∨ ∃ n, N n ∧ m = scope.child n
  making m := m = scope ∨ ∃ n, N n ∧ m = scope.child n
  names _ := False

/-- Any methods. -/
def anyMethod : String → Prop := fun _ => True

/-- No methods that are there already. -/
def noMethod : String → Prop := fun _ => False

theorem Session.allows_body {scope : Namespace} (hN : ∀ n, N n → N' n) :
    s.Allows (.body scope N) (.body scope N') where
  scopes _ _ _ hm := hm.imp_right fun ⟨n, hn, heq⟩ => ⟨n, hN n hn, heq⟩
  making _ _ hm := hm.imp_right fun ⟨n, hn, heq⟩ => ⟨n, hN n hn, heq⟩
  names _ _ hn := hn.elim

/-! ## Type parameters of classes -/

/-- The type parameters that a class can have. -/
structure ClassParams (ps : List TypeParam) : Prop where
  plain : ∀ p ∈ ps, (Ty.param p).Plain
  letters : ∀ p ∈ ps, p.name ∈ capitalLetters
  distinct : (ps.map (·.name)).Nodup
  steady : ∀ p ∈ ps, ∀ b ∈ p.bound, ∀ q, b.Occurs q → q ∈ ps ∧ q.variance = .invariant
  telescoped : Telescoped [] ps

namespace Session

theorem Sound.classParams (hs : s.Sound) (hc : c ∈ s.classes) : ClassParams c.typeParams :=
  let hok := hs.classes c hc
  ⟨hok.plain.params, hok.plain.letters rfl, hok.distinct, hok.steady, hok.telescoped⟩

/-- Where only the type parameters of a class are seen, types mention no others. -/
theorem inMethod_of_sees (hps : ClassParams c.typeParams)
    (hsees : ∀ q, s.SeesParam q → q ∈ c.typeParams) : s.InMethod c := by
  have hparam : ∀ p ∈ c.typeParams, ∀ q, (Ty.param p).Occurs q → q ∈ c.typeParams := by
    intro p hp q hq
    rcases Ty.occurs_param.mp hq with rfl | ⟨b, hb, hq⟩
    · exact hp
    · exact (hps.steady p hp b hb q hq).1
  exact ⟨fun q ⟨p, hp, hq⟩ => .inl (hparam p (hsees p hp) q hq), fun p hp b hb q hq =>
    (hps.steady p (hsees p hp) b hb q hq).2, fun q hq p hp =>
    not_isMarked_of_mem_capitalLetters (hps.letters p (hparam q hq p hp))⟩

/-! ## The class that is made -/

/-- The session is in the body of the class with the header `h`, which was begun in `s₀`. -/
structure InClass (s₀ s : Session) (h : ClassDecl) : Prop where
  start : s₀.Sound
  above : ∀ sup ∈ h.supers, ∃ d ∈ s₀.classes, s₀.isUnfinished d.name = false ∧ d.name = sup.ty.name
  ns : s.frame.ns = h.scope
  making : s.isUnfinished h.name
  exists_mem : ∃ c ∈ s.classes, Decl.outline (.cls c) = Decl.outline (.cls h)
  since : s₀.Leads s
  untouched : ∀ n, s₀.Spent n → (∀ g, .func g ∈ s.decls h.scope → g.name ≠ n) →
    s.context.scope (h.scope.child n) = .empty

/-- A class that is registered stays so, with its header. -/
theorem Extends.exists_class (h : s.Extends P s') (hc : c ∈ s.classes) :
    ∃ c' ∈ s'.classes, Decl.outline (.cls c') = Decl.outline (.cls c) := by
  obtain ⟨d, hd, heq⟩ := List.mem_map.mp
    ((h.decls .global).subset (List.mem_map_of_mem (Context.mem_classes_global.mp hc)))
  cases d with
  | cls c' => exact ⟨c', Context.mem_classes_global.mpr hd, heq⟩
  | _ => cases heq

namespace InClass

variable (hin : s₀.InClass s h)
include hin

/-- The class as it is now. -/
theorem exists_class : ∃ c ∈ s.classes, c.scope = h.scope ∧ c.name = h.name ∧ c.kind = h.kind ∧
    c.typeParams = h.typeParams ∧ c.supers = h.supers ∧ c.isFinal = h.isFinal := by
  obtain ⟨c, hc, heq⟩ := hin.exists_mem
  obtain ⟨name, kind, typeParams, supers, fields, funcs, isFinal⟩ := c
  obtain ⟨name', kind', typeParams', supers', fields', funcs', isFinal'⟩ := h
  cases heq
  exact ⟨_, hc, rfl, rfl, rfl, rfl, rfl, rfl⟩

theorem rooted (hs : s.Sound) : h.scope.segments.head? = some Namespace.globalSegment := hin.ns ▸ hs.rooted

theorem opened (hs : s.Sound) : s.Opened h.scope := hin.ns ▸ hs.here

theorem className?_ne (hs : s.Sound) : h.scope.className? ≠ none := by
  obtain ⟨c, hc, hscope, -⟩ := hin.exists_class
  rw [← hscope, hs.className?_scope hc]
  nofun

/-- A step goes on in the body, if what scopes of methods it adds to are those of methods of the class. -/
theorem step (hs : s.Sound) (hstep : s.Step (.body h.scope N) s')
    (hN : ∀ n, N n → ∃ g, .func g ∈ s'.decls h.scope ∧ g.name = n) : s₀.InClass s' h where
  start := hin.start
  above := hin.above
  ns := hstep.frame ▸ hin.ns
  making := by
    show s'.unfinished.contains h.name
    rw [hstep.unfinished]
    exact hin.making
  exists_mem := by
    obtain ⟨c, hc, heq⟩ := hin.exists_mem
    obtain ⟨c', hc', heq'⟩ := hstep.exists_class hc
    exact ⟨c', hc', heq'.trans heq⟩
  since := hin.since.trans hstep.toLeads
  untouched n hn hnone := by
    have hempty := hin.untouched n hn fun g hg heq => by
      obtain ⟨g', hg', hname, -⟩ := hstep.func_mem hg
      exact hnone g' hg' (hname.trans heq)
    rw [hstep.same _ (opened_child (hin.opened hs) (hin.since.spent n hn))
      (Namespace.child_ne_global (hin.rooted hs)) ?_]
    · exact hempty
    · rintro (heq | ⟨n', hn', heq⟩)
      · exact Namespace.ne_child (Namespace.isWithin_refl h.scope) heq.symm
      · obtain ⟨g, hg, hname⟩ := hN n' hn'
        exact hnone g hg (hname.trans (Namespace.child_injective heq).2.symm)

theorem step_noMethod (hs : s.Sound) (hstep : s.Step (.body h.scope noMethod) s') : s₀.InClass s' h :=
  hin.step hs hstep fun _ hn => hn.elim

/-- What is seen in the class. -/
theorem inMethod (hs : s.Sound) : s.InMethod h := by
  obtain ⟨c, hc, hscope, -, -, hparams, -⟩ := hin.exists_class
  refine inMethod_of_sees (hparams ▸ hs.classParams hc) fun q ⟨ns, hns, hq⟩ => ?_
  rw [hin.ns, ← hscope] at hns
  rw [← hparams]
  exact hs.mem_typeParams hc hns hq

end InClass

/-- A step that declares nothing but fields in the class. -/
structure FieldStep (h : ClassDecl) (s s' : Session) : Prop extends s.Step (.body h.scope noMethod) s' where
  others : ∀ d ∈ s'.decls h.scope, d ∈ s.decls h.scope ∨ ∃ f, d = .field f

instance : RunRelation (FieldStep h) where
  trans _ _ _ h₁ h₂ :=
    ⟨h₁.toStep.trans h₂.toStep, fun d hd => (h₂.others d hd).elim (h₁.others d) .inr⟩
  refl_right h := ⟨.refl h.sound, fun _ hd => .inl hd⟩

theorem FieldStep.refl (hs : s.Sound) : FieldStep h s s := ⟨.refl hs, fun _ hd => .inl hd⟩

end Session

/-- What only draws declares nothing. -/
theorem Gen.Ensures.drawField {α : Type} {x : Gen α} {Q : α → Session → Prop} (hx : x.Ensures OnlyDraws s Q)
    (hs : s.Sound) : x.Ensures (FieldStep h) s fun a s' => s.OnlyDraws s' ∧ Q a s' :=
  hx.imp fun _ s' hdraws ha => by
    refine ⟨?_, hdraws, ha⟩
    obtain ⟨stream, rfl⟩ := hdraws
    exact ⟨.atStream hs stream, fun _ hd => .inl hd⟩

namespace Gen

/-! ## Fields -/

/-- What a new field may be a type of. -/
abbrev fieldTypes (isFinal : Bool) : TypeOpts :=
  { noContravariant := true, noCovariant := !isFinal, noFunctions := true }

/-- A new field: of the type that is given, or of any that may stand there. -/
theorem genField_ensures {type : Option Ty} (hs : s.Sound) :
    (genField type classIsFinal).Ensures (fun _ _ => True) s fun f s' =>
      (∃ s₁, s.OnlyDraws s₁ ∧ s₁.NewName f.name s') ∧ f.isOverride = false ∧ (∀ t ∈ type, f.ty = t) ∧
        (type = none → Chosen s (fieldTypes f.isFinal).Allows f.ty) := by
  unfold genField
  refine (Ensures.onlyIf (R := OnlyDraws) (refl_of OnlyDraws s) fun _ => .coin).seq fun canOverride s₁ h₁ _ => ?_
  refine Ensures.coin.seq fun isFinal s₂ h₂ _ => ?_
  have hdraws := trans_of OnlyDraws h₁ h₂
  obtain ⟨stream, rfl⟩ := hdraws
  have hs₂ : (s.atStream stream).Sound := Sound.atStream hs stream
  cases type with
  | some t =>
    refine .pass ((word_step (P := .within .global) hs₂).seq fun n s₃ _ hn => .pure trivial ?_)
    exact ⟨⟨_, ⟨stream, rfl⟩, hn.1⟩, rfl, fun _ h => Option.some.inj h, nofun⟩
  | none =>
    refine (selectType_chosen (o := fieldTypes isFinal) hs₂ rfl).seq fun t s₃ h₃ ht => ?_
    obtain ⟨stream', rfl⟩ := h₃
    refine (word_step (P := .within .global) (Sound.atStream hs₂ stream')).seq fun n s₄ _ hn => .pure trivial ?_
    exact ⟨⟨_, ⟨stream', rfl⟩, hn.1⟩, rfl, nofun, fun _ => ht.of_atStream⟩

end Gen

namespace Session

/-- The class may have the type for a field. -/
def FieldTypeFits (h : ClassDecl) (t : Ty) : Prop :=
  t.Plain ∧ (h.isGeneric ∨ h.isFinal = false → t.Within h.typeParams IsInvariant)

end Session

namespace Gen

/-- A field enters the class that is made. -/
theorem attachField_ensures {f : FieldDecl} (hs : s.Sound) (hin : s₀.InClass s h) (hp : s.Passes s₁)
    (hc : s₁.context = s.context) (hspent : s₁.Spent f.name) (hwelcome : s.Welcomes h.scope (.field f))
    (htaken : s.Spent f.name → s.HasField f.name f.isFinal)
    (hok : ∀ c ∈ s.classes, c.typeParams = h.typeParams → c.supers = h.supers → c.isFinal = h.isFinal →
      s.FieldOk c f) :
    (attach h.scope (.field f)).Ensures (fun _ s' => s.Step (.body h.scope noMethod) s') s₁ fun _ s' =>
      .field f ∈ s'.decls h.scope ∧ ∀ d ∈ s'.decls h.scope, d ∈ s.decls h.scope ∨ d = .field f := by
  -- The record of the class has been rebuilt since its header was made; it is found again by its
  -- scope.
  obtain ⟨c, hmem, hscope, hname, -, hparams, hsupers, hfinal⟩ := hin.exists_class
  have hr : Attaches (.body h.scope noMethod) s (s₁.withContext (s₁.context.attached c (.field f))) c (.field f) :=
    { context := by rw [← hc]; rfl
      mem := hmem
      making := hname ▸ hin.making
      member := rfl
      welcome := hscope ▸ hwelcome
      opened := fun n hn => spent_withContext.mpr (hp.spent n (hin.opened hs n (hscope ▸ hn)))
      spent := fun n hn => spent_withContext.mpr (List.mem_singleton.mp hn ▸ hspent)
      taken := fun n hn hn' => by
        obtain rfl : n = f.name := List.mem_singleton.mp hn
        obtain ⟨c', hc', f', hf', hname', -⟩ := htaken hn'
        exact .inl ⟨_, _, hs.field_mem hc' hf', hname' ▸ List.mem_cons_self⟩
      scopes := .inl hscope
      permitted := .inl hscope
      field := fun f' heq => by
        cases heq
        exact ⟨htaken, hok c hmem hparams hsupers hfinal⟩
      func := nofun
      shapes := ⟨nofun, fun _ => nofun, Decl.TypesPlain.formed (d := .field f) hwelcome.types nofun⟩ }
  have hattach := attach_step hs hp hc hr
  rw [hscope] at hattach
  refine hattach.mono fun _ s' _ heq => ?_
  have hdecls : s'.decls h.scope = s.decls h.scope ++ [.field f] := by
    rw [← hscope, heq, hr.decls_eq, if_pos rfl, declarations_modifyClass, if_neg (scope_ne_global c)]
  rw [hdecls]
  exact ⟨by simp, fun d hd => (List.mem_append.mp hd).imp_right List.mem_singleton.mp⟩

/-- **A class gets a new field.** -/
theorem newField_ensures {type : Option Ty} (hs : s.Sound) (hin : s₀.InClass s h)
    (htype : ∀ t ∈ type, FieldTypeFits h t) :
    (genField type classIsFinal >>= fun f => attach h.scope (.field f)).Ensures
      (FieldStep h) s fun _ s' => ∃ f : FieldDecl, Decl.field f ∈ s'.decls h.scope ∧
        (∀ t ∈ type, f.ty = t) ∧ ¬s.Spent f.name ∧ ∀ d ∈ s'.decls h.scope, d ∈ s.decls h.scope ∨ d = .field f := by
  refine (genField_ensures hs).seq fun f s₁ _ hf => ?_
  obtain ⟨⟨s₂, ⟨stream, rfl⟩, hname⟩, hoverride, hgiven, hchosen⟩ := hf
  have hstep : s.Step (.body h.scope noMethod) (s.atStream stream) := .atStream hs stream
  have hin₂ := hin.step_noMethod hs hstep
  have hplain : f.ty.Plain := by
    cases type with
    | none => exact (hchosen rfl).plain
    | some t => exact hgiven t rfl ▸ (htype t rfl).1
  refine (attachField_ensures hstep.sound hin₂ hname.passes hname.context hname.spent
    (welcomes_of_fresh (fun n hn => ?_) hplain fun _ h => by cases h) (fun hspent => absurd hspent hname.unspent)
    fun c hc hparams _ hfinal => ⟨fun ho => ?_, fun hvaries => ?_⟩).imp fun _ s' hstep' hpost =>
      ⟨⟨hstep.trans hstep', fun d hd => (hpost.2 d hd).imp_right fun heq => ⟨f, heq⟩⟩, f, hpost.1, hgiven,
        fun hspent => hname.unspent (hstep.spent _ hspent), hpost.2⟩
  · exact List.mem_singleton.mp hn ▸ hname.not_taken hstep.sound
  · rw [hoverride] at ho
    cases ho
  · unfold FieldDecl.Respects
    rw [hparams]
    cases type with
    | some t =>
      rw [hgiven t rfl]
      have hwithin := (htype t rfl).2 (by rwa [ClassDecl.isGeneric, hparams, hfinal] at hvaries)
      exact hwithin.mono fun v hv => hv ▸ ⟨(fun h => by cases h), fun _ h => by cases h⟩
    | none =>
      refine ((hin.inMethod hs).within (hchosen rfl) fun v hv => hv ▸ (fieldTypes f.isFinal).allows_invariant).mono
        fun v hv => ⟨hv.2 rfl, fun hf => hv.1 (by simp [hf])⟩

/-- A supertype of the class has or inherits the member. -/
def FromAbove {α : Type} (s : Session) (members : ClassDecl → List α) (name : α → String) (h : ClassDecl) (a : α)
    (m : Subst) : Prop :=
  ∃ sup ∈ h.supers, s.context.Inherits members name (name a) sup.ty a m

namespace FromAbove

variable {α : Type} {members : ClassDecl → List α} {name : α → String} {a : α}
variable (habove : FromAbove s₀ members name h a m) (hin : s₀.InClass s h)
include habove hin

/-- What was there before the class was begun is inherited. -/
theorem inherited (hs : s.Sound) (hc : c ∈ s.classes) (hsupers : c.supers = h.supers) :
    s.Inherited members name c a m := by
  obtain ⟨sup, hsup, hinherits⟩ := habove
  exact hs.inherited hc (hsupers ▸ hsup) (hin.start.inherits_mono hin.since (hin.above sup hsup) hinherits)

theorem mem : ∃ d ∈ s₀.classes, s₀.isUnfinished d.name = false ∧ a ∈ members d := by
  obtain ⟨sup, hsup, hinherits⟩ := habove
  obtain ⟨d, hd, hfinished, hname⟩ := hin.above sup hsup
  obtain ⟨d', ⟨hd', hfinished'⟩, ha⟩ := hinherits.mem_settled hin.start.settled
    hin.start.toRegistered.distinctClasses ⟨d, ⟨hd, hfinished⟩, hname⟩
  exact ⟨d', hd', hfinished', ha⟩

end FromAbove

/-- **An inherited field is overridden.** -/
theorem overrideField_ensures {f : FieldDecl} (hs : s.Sound) (hin : s₀.InClass s h)
    (habove : FromAbove s₀ ClassDecl.fields FieldDecl.name h f m) (hcan : f.canOverride)
    (hfree : ∀ g, .field g ∈ s.decls h.scope → g.name ≠ f.name) :
    (overrideField h.scope m classIsFinal f).Ensures (FieldStep h) s fun _ s' =>
      ∀ d ∈ s'.decls h.scope, d ∈ s.decls h.scope ∨ ∃ g : FieldDecl, d = .field g ∧ g.name = f.name := by
  unfold overrideField
  refine ((Ensures.onlyIf (R := OnlyDraws) (refl_of OnlyDraws s) fun _ => .coin).drawField hs).bind
    fun canOverride s₁ h₁ hpost => ?_
  obtain ⟨⟨stream, rfl⟩, -⟩ := hpost
  have hs₁ := h₁.sound
  obtain ⟨c, hc, -, -, -, -, hsupers, -⟩ := hin.exists_class
  obtain ⟨d, hd, hfinished, hf⟩ := (habove.inherited hin hs hc hsupers).mem
  have hview := (habove.inherited hin hs hc hsupers).view
  have hmem : .field f ∈ s.decls d.scope := hs.field_mem hd hf
  -- A declaration of the same name anywhere is a field, and agrees with this one on whether it can
  -- be written.
  have hunique : ∀ ns, ∀ d' ∈ s.decls ns, d'.name = f.name → ∃ g : FieldDecl, d' = .field g ∧ g.isFinal = f.isFinal := by
    intro ns d' hd' hname
    rcases hs.eq_or_agrees hmem hd' hname.symm with ⟨-, rfl⟩ | hagrees
    · exact ⟨f, rfl, rfl⟩
    · cases d' with
      | field g => exact ⟨g, rfl, hagrees.symm⟩
      | _ => cases hagrees
  refine (attachField_ensures (f := ⟨f.name, f.ty.subst m, f.isFinal, canOverride, true⟩) hs₁
    (hin.step_noMethod hs h₁.toStep) (.refl hs₁) rfl (h₁.spent _ (hs.spent_name hmem)) ?_
    (fun _ => ⟨d, hd, f, hf, rfl, rfl⟩) fun c' hc' hparams hsupers' hfinal => ?_).imp fun _ s' h' hpost =>
      ⟨⟨h', fun d' hd' => (hpost.2 d' hd').imp_right fun heq => ⟨_, heq⟩⟩, fun d' hd' =>
        (hpost.2 d' hd').imp_right fun heq => ⟨⟨f.name, f.ty.subst m, f.isFinal, canOverride, true⟩, heq, rfl⟩⟩
  · exact
      { keys := fun d' hd' hkind hname => by
          obtain ⟨g, rfl, -⟩ := hunique _ d' hd' hname
          exact hfree g hd' hname
        unique := fun ns d' hd' hname => by
          obtain ⟨g, rfl, hfinal⟩ := hunique ns d' hd' hname
          exact hfinal
        params := fun ns g hg p hp hname => by
          obtain ⟨q, hq⟩ := hs.isParamName hg hp _ _ hmem hname.symm
          cases hq
        ownParams := nofun
        types := hview.subst_plain (hs.types _ _ hmem) }
  · have hc'' := habove.inherited hin hs hc' hsupers'
    refine ⟨fun _ => ⟨f, m, hc''.inherits, hcan, rfl, rfl⟩, fun hvaries => ?_⟩
    obtain ⟨d', hrespects, hf', hviews⟩ := hc''.varies hvaries
    exact ((hrespects.fields f hf').subst (hs.types _ _ hmem) hviews).mono
      fun v hv => hv ▸ ⟨(fun h => by cases h), fun _ h => by cases h⟩

/-- Some elements of a list, each of them once. -/
theorem sample_ensures {α : Type} {xs : List α} {most : Nat} :
    (sample xs most).Ensures OnlyDraws s fun ys _ => List.Subperm ys xs :=
  Ensures.sizeBetween.bind fun _ _ _ _ => .rand fun _ _ h => Rand.subperm_of_canGive_chooseMultiple h

/-- The names of some elements are distinct if those of all are. -/
theorem nodup_map_of_subperm {α β : Type} {xs ys : List α} {key : α → β} (h : List.Subperm ys xs)
    (hxs : (xs.map key).Nodup) : (ys.map key).Nodup := by
  obtain ⟨zs, hperm, hsub⟩ := h
  exact (hperm.map key).nodup_iff.mp (hxs.sublist (hsub.map key))

end Gen

/-! ## Members of a superclass -/

/-- Among declarations of one kind, names are distinct. -/
theorem nodup_filterMap_name {α : Type} {sel : Decl → Option α} {key : α → String} {k : DeclKind} {ds : List Decl}
    (hkeys : (ds.map fun d => (d.kind, d.name)).Nodup)
    (hsel : ∀ d a, sel d = some a → d.kind = k ∧ d.name = key a) : ((ds.filterMap sel).map key).Nodup := by
  rw [List.Nodup, List.pairwise_map] at hkeys ⊢
  refine hkeys.filterMap sel fun d d' hne a ha b hb heq => hne ?_
  obtain ⟨hk, hn⟩ := hsel d a ha
  obtain ⟨hk', hn'⟩ := hsel d' b hb
  rw [hk, hk', hn, hn', heq]

namespace Session

theorem Sound.nodup_fields (hs : s.Sound) (hc : c ∈ s.classes) : (c.fields.map (·.name)).Nodup := by
  rw [(hs.members c hc).1]
  refine nodup_filterMap_name (hs.keys c.scope) (k := .var) fun d f hf => ?_
  cases d <;> cases hf
  exact ⟨rfl, rfl⟩

theorem Sound.nodup_funcs (hs : s.Sound) (hc : c ∈ s.classes) : (c.funcs.map (·.name)).Nodup := by
  rw [(hs.members c hc).2]
  refine nodup_filterMap_name (hs.keys c.scope) (k := .func) fun d f hf => ?_
  cases d <;> cases hf
  exact ⟨rfl, rfl⟩

/-- A receiver is of a class of the program, seen with the receiver's arguments. -/
theorem of_receiver? (hr : s.receiver? t = some (c, m)) :
    c ∈ s.classes ∧ c.name = t.name ∧ m = t.argMap ∧ t.isObject := by
  have hm := eq_argMap_of_receiver? hr
  unfold receiver? at hr
  split at hr
  · obtain ⟨d, hd, hx⟩ := Option.map_eq_some_iff.mp hr
    cases hx
    exact ⟨(mem_of_class? hd).2, (mem_of_class? hd).1, hm, rfl⟩
  · split at hr
    · cases hr
    · rename_i hnot
      obtain ⟨d, hd, hx⟩ := Option.map_eq_some_iff.mp hr
      cases hx
      rw [Bool.or_eq_true, not_or] at hnot
      exact ⟨(mem_of_class? hd).2, (mem_of_class? hd).1, hm, by simpa [Ty.isObject] using hnot.1⟩
  · cases hr

/-- A field that is registered stays so. -/
theorem Extends.field_mem {ns : Namespace} {f : FieldDecl} (h : s.Extends P s') (hf : .field f ∈ s.decls ns) :
    .field f ∈ s'.decls ns := by
  obtain ⟨d, hd, heq⟩ := List.mem_map.mp ((h.decls ns).subset (List.mem_map_of_mem hf))
  exact Decl.eq_of_outline_field heq.symm rfl ▸ hd

namespace InClass

variable (hin : s₀.InClass s h)
include hin

/-- The class of a supertype was finished before the class was begun. -/
theorem superclass (hs : s.Sound) {sup : SuperDecl} (hsup : sup ∈ h.supers)
    (hr : s.receiver? sup.ty = some (c, m)) :
    c ∈ s₀.classes ∧ s₀.isUnfinished c.name = false ∧ c.name = sup.ty.name ∧ m = sup.ty.argMap := by
  obtain ⟨hc, hname, hm, -⟩ := of_receiver? hr
  obtain ⟨d, hd, hfinished, hdname⟩ := hin.above sup hsup
  obtain rfl := hs.class_eq hc (hin.since.finished d hd hfinished).1 (hname.trans hdname.symm)
  exact ⟨hd, hfinished, hname, hm⟩

end InClass

end Session

/-! ## The fields of a class -/

namespace Gen

/-- Inherited fields are overridden one by one. -/
theorem overrideFields_ensures {fs : List FieldDecl} (hs : s.Sound) (hin : s₀.InClass s h)
    (habove : ∀ f ∈ fs, f.canOverride ∧ FromAbove s₀ ClassDecl.fields FieldDecl.name h f m)
    (hnodup : (fs.map (·.name)).Nodup) (hfree : ∀ f ∈ fs, ∀ g, .field g ∈ s.decls h.scope → g.name ≠ f.name) :
    (fs.forM (overrideField h.scope m classIsFinal)).Ensures (FieldStep h) s fun _ _ => True := by
  induction fs generalizing s with
  | nil => exact .pure (.refl hs) trivial
  | cons f fs ih =>
    obtain ⟨hf, habove⟩ := List.forall_mem_cons.mp habove
    obtain ⟨hfname, hnodup⟩ := List.nodup_cons.mp hnodup
    obtain ⟨hffree, hfree⟩ := List.forall_mem_cons.mp hfree
    refine (overrideField_ensures hs hin hf.2 hf.1 hffree).bind fun _ s₁ h₁ hnew => ?_
    refine ih h₁.sound (hin.step_noMethod hs h₁.toStep) habove hnodup fun g hg g' hg' hname => ?_
    rcases hnew _ hg' with hold | ⟨g'', heq, hname'⟩
    · exact hfree g hg g' hold hname
    · cases heq
      exact hfname (List.mem_map.mpr ⟨g, hg, hname.symm.trans hname'⟩)

/-- The field that is required. -/
theorem requiredField_ensures {required : Option Ty} {limit : Nat} (hs : s.Sound) (hin : s₀.InClass s h)
    (hrequired : ∀ t ∈ required, FieldTypeFits h t) (hnone : ∀ f, .field f ∉ s.decls h.scope) :
    (requiredField h.scope classIsFinal required limit).Ensures (FieldStep h) s fun _ s' =>
      (∀ t ∈ required, ∃ f : FieldDecl, .field f ∈ s'.decls h.scope ∧ f.ty = t) ∧
        ∀ f : FieldDecl, .field f ∈ s'.decls h.scope → ¬s.Spent f.name := by
  unfold requiredField
  split
  · exact .pure (.refl hs) ⟨nofun, fun f hf => absurd hf (hnone f)⟩
  · rw [← bind_assoc]
    refine (newField_ensures hs hin hrequired).bind fun _ s₁ h₁ hpost => ?_
    obtain ⟨f, hf, hty, hname, hmem⟩ := hpost
    refine .pure (.refl h₁.sound) ⟨fun t ht => ⟨f, hf, hty t ht⟩, fun g hg => ?_⟩
    rcases hmem _ hg with hold | heq
    · exact absurd hold (hnone g)
    · cases heq
      exact hname

/-- The inherited fields that are overridden. -/
theorem inheritedFields_ensures {superType : Option Ty} {limit : Nat} (hs : s.Sound) (hin : s₀.InClass s h)
    (hsuper : ∀ t ∈ superType, ∃ sup ∈ h.supers, sup.ty = t)
    (hnew : ∀ f, .field f ∈ s.decls h.scope → ¬s₀.Spent f.name) :
    (inheritedFields h.scope classIsFinal superType limit).Ensures (FieldStep h) s
      fun _ _ => True := by
  unfold inheritedFields
  refine .get ?_
  split
  · exact .pure (.refl hs) trivial
  · rename_i c m hreceiver
    obtain ⟨t, ht, hreceiver⟩ := Option.bind_eq_some_iff.mp hreceiver
    obtain ⟨sup, hsup, rfl⟩ := hsuper t ht
    obtain ⟨hc, -, hname, rfl⟩ := hin.superclass hs hsup hreceiver
    refine (sample_ensures.drawField hs).bind fun fields s₁ h₁ hpost => ?_
    obtain ⟨⟨stream, rfl⟩, hfields⟩ := hpost
    have hmem : ∀ f ∈ fields, f ∈ c.fields ∧ f.canOverride := fun f hf => List.mem_filter.mp (hfields.subset hf)
    refine (overrideFields_ensures h₁.sound (hin.step_noMethod hs h₁.toStep) (fun f hf => ⟨(hmem f hf).2, sup, hsup,
      .here hc hname (hmem f hf).1 rfl⟩)
      (nodup_map_of_subperm hfields ((hin.start.nodup_fields hc).sublist (List.filter_sublist.map _)))
        fun f hf g hg heq => ?_).bind fun _ s₂ h₂ _ => .pure (.refl h₂.sound) trivial
    exact hnew g hg (heq ▸ hin.start.spent_name (hin.start.field_mem hc (hmem f hf).1))

/-- **The fields of a new class.** -/
theorem genFields_ensures {required superType : Option Ty} (hs : s.Sound) (hin : s₀.InClass s h)
    (hrequired : ∀ t ∈ required, FieldTypeFits h t) (hsuper : ∀ t ∈ superType, ∃ sup ∈ h.supers, sup.ty = t)
    (hnone : ∀ f, .field f ∉ s.decls h.scope) :
    (genFields h.scope classIsFinal required superType).Ensures (FieldStep h) s fun _ s' =>
      ∀ t ∈ required, ∃ f : FieldDecl, .field f ∈ s'.decls h.scope ∧ f.ty = t := by
  rw [genFields_eq]
  refine .get ((requiredField_ensures hs hin hrequired hnone).bind fun limit s₁ h₁ hpost => ?_)
  obtain ⟨hfield, hnew⟩ := hpost
  have hin₁ := hin.step_noMethod hs h₁.toStep
  refine (inheritedFields_ensures h₁.sound hin₁ hsuper fun f hf hspent => hnew f hf (hin.since.spent _ hspent)).bind
    fun overridden s₂ h₂ _ => ?_
  have hin₂ := hin₁.step_noMethod h₁.sound h₂.toStep
  refine (Ensures.sizeBetween.drawField h₂.sound).bind fun extra s₃ h₃ _ => ?_
  refine (Ensures.times (G := fun _ _ => True) (.refl h₃.sound) (fun s₄ h₄ => ?_) fun _ _ _ _ _ => trivial).bind
    fun _ s₄ h₄ _ => .pure (.refl h₄.sound) fun t ht => ?_
  · have hin₄ := (hin₂.step_noMethod h₂.sound h₃.toStep).step_noMethod h₃.sound h₄.toStep
    have hany : ∀ t ∈ (none : Option Ty), FieldTypeFits h t := nofun
    exact (newField_ensures h₄.sound hin₄ hany).mono fun _ _ _ _ => trivial
  · obtain ⟨f, hf, hty⟩ := hfield t ht
    exact ⟨f, (h₂.toStep.trans (h₃.toStep.trans h₄.toStep)).field_mem hf, hty⟩

end Gen

/-! ## The methods of a class -/

namespace Session

/-- The class has a function for every one that its supertypes leave unimplemented. -/
def Implements (s : Session) (h : ClassDecl) : Prop :=
  ∀ sup ∈ h.supers, ∀ x ∈ abstractMembers s.context sup.ty, ∃ g, .func g ∈ s.decls h.scope ∧ g.name = x.1.name

namespace InClass

variable (hin : s₀.InClass s h)
include hin

/-- What a supertype leaves unimplemented was known before the class was begun. -/
theorem abstractMembers_eq (hs : s.Sound) {sup : SuperDecl} (hsup : sup ∈ h.supers) :
    abstractMembers s.context sup.ty = abstractMembers s₀.context sup.ty := by
  obtain ⟨d, hd, hfinished, hname⟩ := hin.above sup hsup
  exact hin.start.abstractMembers_mono hin.since hs.toRegistered.distinctClasses hd hfinished hname.symm

theorem implements_step (hs : s.Sound) (hin' : s₀.InClass s' h) (hstep : s.Step P s') (himpl : s.Implements h) :
    s'.Implements h := by
  intro sup hsup x hx
  rw [hin'.abstractMembers_eq hstep.sound hsup, ← hin.abstractMembers_eq hs hsup] at hx
  obtain ⟨g, hg, hname⟩ := himpl sup hsup x hx
  obtain ⟨g', hg', hname', -⟩ := hstep.func_mem hg
  exact ⟨g', hg', hname'.trans hname⟩

/-- **A regular class that has them all is complete.** -/
theorem complete (hs : s.Sound) (himpl : s.Implements h) (hc : c ∈ s.classes) (hname : c.name = h.name)
    (hregular : c.kind = .regular) : abstractMembers s.context c.ownType = [] := by
  have hok := hs.classes c hc
  obtain ⟨c', hc', hscope, hname', -, -, hsupers, -⟩ := hin.exists_class
  obtain rfl := hs.class_eq hc hc' (hname.trans hname'.symm)
  refine abstractMembers_eq_nil hs.settled hs.toRegistered.distinctClasses hc (ownType_name c) (fun sup hsup => ?_)
    (hok.keeps.implemented hregular) fun sup hsup x hx => ?_
  · obtain ⟨d, hd, hfinished, hsuits⟩ := hok.supers sup hsup
    exact ⟨hs.super_isObject hc hsup, d, ⟨hd, hfinished⟩, hsuits.name⟩
  · obtain ⟨g, hg, hgname⟩ := himpl sup (hsupers ▸ hsup) x hx
    refine ⟨g, ?_, hgname⟩
    rw [(hs.members c hc).2]
    exact List.mem_filterMap.mpr ⟨_, hscope ▸ hg, rfl⟩

end InClass

end Session

namespace Gen

/-- **Inherited functions are overridden one by one.** -/
theorem overrideFuncs_ensures {α : Type} {xs : List α} (func : α → FuncDecl) (view : α → Subst) (hs : s.Sound)
    (he : s.Served e 1) (hin : s₀.InClass s h) (habove : ∀ x ∈ xs, (func x).isFinal = false ∧
      FromAbove s₀ ClassDecl.funcs FuncDecl.name h (func x) (view x))
    (hnodup : (xs.map fun x => (func x).name).Nodup)
    (hfree : ∀ x ∈ xs, ∀ g, .func g ∈ s.decls h.scope → g.name ≠ (func x).name) :
    (xs.forM fun x => do let _ ← overrideFunc e h.scope (view x) classIsFinal (func x) : Gen Unit).Ensures
      (Step (.body h.scope anyMethod)) s fun _ s' => s₀.InClass s' h ∧
        (∀ x ∈ xs, ∃ g, .func g ∈ s'.decls h.scope ∧ g.name = (func x).name) ∧
        ∀ f, .field f ∈ s'.decls h.scope → .field f ∈ s.decls h.scope := by
  -- The names are distinct, so overriding one member leaves the names of the others free.
  induction xs generalizing s with
  | nil => exact .pure (.refl hs) ⟨hin, nofun, fun _ hf => hf⟩
  | cons x xs ih =>
    obtain ⟨⟨hfinal, hx⟩, habove⟩ := List.forall_mem_cons.mp habove
    obtain ⟨hxname, hnodup⟩ := List.nodup_cons.mp hnodup
    obtain ⟨hxfree, hfree⟩ := List.forall_mem_cons.mp hfree
    obtain ⟨c, hc, hscope, hname, -, -, hsupers, -⟩ := hin.exists_class
    obtain ⟨d, hd, -, hf⟩ := hx.mem hin
    have hspent := hin.start.spent_name (hin.start.func_mem hd hf)
    have hclass : h.scope.className? ≠ none := hin.className?_ne hs
    have hoverride := overrideFunc_ensures (P := .body h.scope (· = (func x).name)) classIsFinal hs he hc
      (hname ▸ hin.making) (hin.ns.trans hscope.symm) (hx.inherited hin hs hc hsupers) hfinal
      ⟨.inl hscope, .inl hscope, .inr ⟨_, rfl, by rw [hscope]⟩, .inr ⟨_, rfl, by rw [hscope]⟩⟩
      (hscope ▸ hxfree) (hscope ▸ hin.untouched _ hspent hxfree)
    rw [hscope] at hoverride
    refine Ensures.bind (Q := fun _ s' => s₀.InClass s' h ∧ (∃ g, .func g ∈ s'.decls h.scope ∧ g.name = (func x).name) ∧
      ∀ d ∈ s'.decls h.scope, d.isMember → d ∈ s.decls h.scope ∨ ∃ g : FuncDecl, d = .func g ∧ g.name = (func x).name)
      ?_ fun _ s₁ h₁ hpost => ?_
    · refine (hoverride.imp fun g s₁ h₁ hg => ?_).bind fun _ s₁ h₁ hpost => .pure (.refl h₁.sound) hpost
      have hgname : g.name = (func x).name := hg.name _ rfl
      refine ⟨h₁.relax (allows_body fun _ _ => trivial), hin.step hs h₁ ?_, ⟨g, hg.mem, hgname⟩, fun d hd hmember =>
        (hg.members hclass d hd hmember).imp_right fun heq => ⟨g, heq, hgname⟩⟩
      rintro n rfl
      exact ⟨g, hg.mem, hgname⟩
    -- What this step added has the name of `x`, which is none of those to come.
    · obtain ⟨hin₁, ⟨g, hg, hgname⟩, hold⟩ := hpost
      refine (ih h₁.sound (he.step h₁) hin₁ habove hnodup fun y hy g' hg' heq => ?_).imp fun _ s₂ h₂ hpost =>
        ⟨h₂, hpost.1, List.forall_mem_cons.mpr ⟨?_, hpost.2.1⟩, fun f hf => ?_⟩
      · rcases hold _ hg' rfl with hg' | ⟨g'', heq', hname'⟩
        · exact hfree y hy g' hg' heq
        · cases heq'
          exact hxname (List.mem_map.mpr ⟨y, hy, heq.symm.trans hname'⟩)
      · obtain ⟨g', hg', hname', -⟩ := h₂.func_mem hg
        exact ⟨g', hg', hname'.trans hgname⟩
      · rcases hold _ (hpost.2.2 f hf) rfl with hf | ⟨g', heq, -⟩
        · exact hf
        · cases heq

/-- What is left to be implemented is implemented. -/
theorem implementAll_ensures {sup : SuperDecl} (hs : s.Sound) (he : s.Served e 1) (hin : s₀.InClass s h)
    (hsup : h.supers = [sup]) (hnew : ∀ g, .func g ∈ s.decls h.scope → ¬s₀.Spent g.name) :
    ((abstractMembers s.context sup.ty).forM fun (f, m) => do
        let _ ← overrideFunc e h.scope m classIsFinal f : Gen Unit).Ensures (Step (.body h.scope anyMethod)) s
      fun _ s' => s₀.InClass s' h ∧ s'.Implements h ∧
        ∀ f, .field f ∈ s'.decls h.scope → .field f ∈ s.decls h.scope := by
  have hmem : sup ∈ h.supers := hsup ▸ List.mem_cons_self
  have habove : ∀ x ∈ abstractMembers s.context sup.ty, x.1.isFinal = false ∧
      FromAbove s₀ ClassDecl.funcs FuncDecl.name h x.1 x.2 := by
    intro x hx
    rw [hin.abstractMembers_eq hs hmem] at hx
    obtain ⟨habstract, hinherits⟩ := inherits_of_mem_abstractMembers hx
    have hfrom : FromAbove s₀ ClassDecl.funcs FuncDecl.name h x.1 x.2 := ⟨sup, hmem, hinherits⟩
    obtain ⟨d, hd, -, hf⟩ := hfrom.mem hin
    exact ⟨(hin.start.classes d hd).keeps.extensible _ hf habstract, hfrom⟩
  refine (overrideFuncs_ensures Prod.fst Prod.snd hs he hin habove abstractMembersWithin_nodup
    fun x hx g hg heq => ?_).imp fun _ s' h' hpost => ⟨h', hpost.1, fun sup' hsup' x hx => ?_, hpost.2.2⟩
  · obtain ⟨d, hd, -, hf⟩ := (habove x hx).2.mem hin
    exact hnew g hg (heq ▸ hin.start.spent_name (hin.start.func_mem hd hf))
  · rw [hpost.1.abstractMembers_eq h'.sound hsup', ← hin.abstractMembers_eq hs hsup'] at hx
    obtain rfl := List.mem_singleton.mp (hsup ▸ hsup')
    exact hpost.2.1 x hx

/-- Some of the inherited functions that the class does not have yet are overridden. -/
theorem overrideSome_ensures {sup : SuperDecl} {limit : Nat} (hs : s.Sound) (he : s.Served e 1)
    (hin : s₀.InClass s h) (hsup : sup ∈ h.supers) (hr : s.receiver? sup.ty = some (c, m)) :
    (do let funcs ← sample (overridableFuncs s h.scope c) limit
        funcs.forM fun f => do
          let _ ← overrideFunc e h.scope m classIsFinal f
        return funcs.length : Gen Nat).Ensures (Step (.body h.scope anyMethod)) s fun _ s' => s₀.InClass s' h := by
  obtain ⟨hc, -, hname, rfl⟩ := hin.superclass hs hsup hr
  refine (sample_ensures.drawStep hs).bind fun funcs s₁ h₁ hpost => ?_
  obtain ⟨⟨stream, rfl⟩, hfuncs⟩ := hpost
  have hin₁ : s₀.InClass (s.atStream stream) h := hin.step_noMethod hs (.atStream hs stream)
  have hmem : ∀ f ∈ funcs, f ∈ c.overridableFuncs ∧ _ := fun f hf => List.mem_filter.mp (hfuncs.subset hf)
  have hsub : (overridableFuncs s h.scope c).Sublist c.funcs := List.filter_sublist.trans List.filter_sublist
  refine (overrideFuncs_ensures id (fun _ => sup.ty.argMap) h₁.sound (he.step h₁)
    hin₁ (fun f hf => ?_)
    (nodup_map_of_subperm hfuncs ((hin.start.nodup_funcs hc).sublist (hsub.map _))) fun f hf g hg heq => ?_).bind
      fun _ s₂ h₂ hpost => .pure (.refl h₂.sound) hpost.1
  · obtain ⟨hf, hover⟩ := List.mem_filter.mp (hmem f hf).1
    exact ⟨by simpa using hover, sup, hsup, .here hc hname hf rfl⟩
  · obtain ⟨d, hd, hscope, hdname, -⟩ := hin.exists_class
    have himplemented := (hmem f hf).2
    have hlast : h.scope.last = d.name := hdname ▸ rfl
    rw [hlast, hs.class?_eq hd] at himplemented
    have hg' : g ∈ d.funcs := by
      rw [(hs.members d hd).2]
      exact List.mem_filterMap.mpr ⟨_, hscope ▸ hg, rfl⟩
    have hnot : g.name ∈ d.funcs.map (·.name) := List.mem_map_of_mem hg'
    simp only [Option.map_some, Option.getD_some, Bool.and_eq_true, Bool.not_eq_true', List.contains_eq_mem,
      decide_eq_false_iff_not] at himplemented
    exact himplemented.2 (heq ▸ hnot)

/-- **Inherited functions are implemented or overridden.** -/
theorem inheritedMethods_ensures {superclass : Option SuperDecl} {kind : ClassKind} {limit : Nat} (hs : s.Sound)
    (he : s.Served e 1) (hin : s₀.InClass s h) (hsupers : h.supers = superclass.toList)
    (hnew : ∀ g, .func g ∈ s.decls h.scope → ¬s₀.Spent g.name) :
    (inheritedMethods e h.scope kind classIsFinal (superclass.map (·.ty)) limit).Ensures
      (Step (.body h.scope anyMethod)) s fun _ s' => s₀.InClass s' h ∧ (kind = .regular → s'.Implements h) := by
  cases superclass with
  | none =>
    refine .pure (.refl hs) ⟨hin, fun _ sup hsup => ?_⟩
    rw [hsupers] at hsup
    cases hsup
  | some sup =>
    have hsup : sup ∈ h.supers := hsupers ▸ List.mem_singleton_self sup
    unfold inheritedMethods
    simp only [Option.map_some]
    unfold genInheritedFuncs
    extract_lets rest
    -- What is overridden from here on is optional, and leaves what implements the abstract members.
    have hrest : ∀ s₁, s.Step (.body h.scope anyMethod) s₁ → s₀.InClass s₁ h → (kind = .regular → s₁.Implements h) →
        (rest ()).Ensures (Step (.body h.scope anyMethod)) s₁
          fun _ s' => s₀.InClass s' h ∧ (kind = .regular → s'.Implements h) := by
      intro s₁ h₁ hin₁ himpl
      show Ensures _ (ite _ _ _) _ _
      split
      · exact .pure (.refl h₁.sound) ⟨hin₁, himpl⟩
      · refine .get ?_
        split
        · exact .pure (.refl h₁.sound) ⟨hin₁, himpl⟩
        · exact .get ((overrideSome_ensures h₁.sound (he.step h₁) hin₁ hsup ‹_›).imp fun _ s₂ h₂ hin₂ =>
            ⟨h₂, hin₂, fun hkind => hin₁.implements_step h₁.sound hin₂ h₂ (himpl hkind)⟩)
    split
    · exact .get ((implementAll_ensures hs he hin hsupers hnew).bind fun _ s₁ h₁ hpost =>
        hrest s₁ h₁ hpost.1 fun _ => hpost.2.1)
    · exact hrest s (.refl hs) hin fun hkind => absurd hkind ‹_›

/-! ## New methods -/

/-- A new method of the class, with the result that is asked for. -/
theorem newMethod_ensures {a b : Bool} {r : Option Ty} (hs : s.Sound) (he : s.Served e 1)
    (hin : s₀.InClass s h) (hret : ∀ t ∈ r, t.Requested ∧ (t.isVoid ∨ ResultFits h t)) :
    (genFuncDecl e { memberSpec h.scope h.kind classIsFinal a with ret := r, notVoid := b }).Ensures
      (Step (.body h.scope noMethod)) s fun f s' =>
        ¬s.Spent f.name ∧ ∀ d ∈ s'.decls h.scope, d.isMember → d ∈ s.decls h.scope ∨ d = .func f := by
  obtain ⟨c, hc, hscope, hname, hkind, hparams, -, -⟩ := hin.exists_class
  have hclass : h.scope.className? ≠ none := hin.className?_ne hs
  have hplace : FuncSpec.Place { memberSpec h.scope h.kind classIsFinal a with ret := r, notVoid := b }
      (.body h.scope noMethod) s c.scope := by
    refine .cls hc (hname ▸ hin.making) (.inl hscope) (.inl hscope) (.chosen rfl rfl rfl fun t ht =>
      (hret t ht).2.imp_right fun hfits => ?_) fun hregular => ?_
    · obtain ⟨hwithin, htidy⟩ := hfits
      exact ⟨hparams ▸ hwithin, htidy.imp_right fun hall => by unfold UsesAllLetters; rwa [hparams]⟩
    · rw [hkind] at hregular
      simp [memberSpec, hregular]
  rw [hscope] at hplace
  have hspec : FuncSpec.Declarable { memberSpec h.scope h.kind classIsFinal a with ret := r, notVoid := b }
      (.body h.scope noMethod) s h.scope :=
    { ns := rfl
      rooted := hin.rooted hs
      opened := hin.opened hs
      place := hplace
      named := .fresh rfl rfl
      placed := fun _ hlocal => absurd hlocal.className?_eq hclass
      ret := fun t ht => (hret t ht).1
      typeParams := fun _ hps => by cases hps
      whole := fun _ => rfl }
  exact (genFuncDecl_ensures hs he hspec).mono fun f s' _ hpost => ⟨hpost.fresh rfl, hpost.members hclass⟩

/-- The method that is required. -/
theorem requiredMethod_ensures {notVoid : Bool} {ret : Option Ty} {limit : Nat} (hs : s.Sound) (he : s.Served e 1)
    (hin : s₀.InClass s h) (hret : ∀ t ∈ ret, t.Requested ∧ (t.isVoid ∨ ResultFits h t))
    (hnone : ∀ g, .func g ∉ s.decls h.scope) :
    (requiredMethod e (memberSpec h.scope h.kind classIsFinal notVoid) ret limit).Ensures
      (Step (.body h.scope noMethod)) s fun _ s' => ∀ g : FuncDecl, .func g ∈ s'.decls h.scope → ¬s.Spent g.name := by
  unfold requiredMethod
  split
  · exact .pure (.refl hs) fun g hg => absurd hg (hnone g)
  · refine (newMethod_ensures hs he hin hret).bind fun f s₁ h₁ hpost => .pure (.refl h₁.sound) fun g hg => ?_
    rcases hpost.2 _ hg rfl with hold | heq
    · exact absurd hold (hnone g)
    · cases heq
      exact hpost.1

/-- **The methods of a new class.** -/
theorem genMethods_ensures {spec : ClassSpec} {superclass : Option SuperDecl} (hs : s.Sound) (he : s.Served e 1)
    (hin : s₀.InClass s h) (hret : ∀ t ∈ spec.returnType, t.Requested ∧ (t.isVoid ∨ ResultFits h t))
    (hsignature : spec.signature = none) (hsupers : h.supers = superclass.toList)
    (hnone : ∀ g, .func g ∉ s.decls h.scope) :
    (genMethods e h.scope h.kind classIsFinal spec (superclass.map (·.ty))).Ensures (Step (.body h.scope anyMethod)) s
      fun _ s' => s₀.InClass s' h ∧ (h.kind = .regular → s'.Implements h) := by
  have hany : ∀ {s s' : Session}, s.Step (.body h.scope noMethod) s' → s.Step (.body h.scope anyMethod) s' :=
    fun hstep => hstep.relax (allows_body fun _ hn => hn.elim)
  rw [genMethods_eq, hsignature]
  refine .get ((requiredMethod_ensures hs he hin hret hnone).seq fun limit s₁ h₁ hnew => ?_)
  have hin₁ := hin.step_noMethod hs h₁
  refine .pass (Ensures.weaken (R := Step (.body h.scope anyMethod)) ?_ fun _ => (hany h₁).trans)
  refine (inheritedMethods_ensures h₁.sound (he.step h₁) hin₁ hsupers fun g hg hspent =>
    hnew g hg (hin.since.spent _ hspent)).bind fun overridden s₂ h₂ hpost => ?_
  obtain ⟨hin₂, himpl⟩ := hpost
  refine (Ensures.sizeBetween.drawStep h₂.sound).bind fun extra s₃ h₃ hdraws => ?_
  obtain ⟨⟨stream, rfl⟩, -⟩ := hdraws
  have hin₃ : s₀.InClass (s₂.atStream stream) h := hin₂.step_noMethod h₂.sound (.atStream h₂.sound stream)
  have he₃ := (he.step h₁).step (h₂.trans h₃)
  have htimes : (times extra (genFuncDecl e (memberSpec h.scope h.kind classIsFinal spec.notVoid))).Ensures
      (Step (.body h.scope noMethod)) (s₂.atStream stream) fun as _ => ∀ a ∈ as, True := by
    refine .times (.refl h₃.sound) (fun s₄ h₄ => ?_) fun _ _ _ _ _ => trivial
    exact (newMethod_ensures (a := spec.notVoid) (b := spec.notVoid) (r := none) h₄.sound (he₃.step h₄)
      (hin₃.step_noMethod h₃.sound h₄) nofun).mono fun _ _ _ _ => trivial
  refine (htimes.imp fun _ s₄ h₄ _ => ?_).bind fun _ s₄ h₄ hpost => .pure (.refl h₄.sound) hpost
  have hin₄ := hin₃.step_noMethod h₃.sound h₄
  exact ⟨hany h₄, hin₄, fun hkind => hin₂.implements_step h₂.sound hin₄ (h₃.trans (hany h₄)) (himpl hkind)⟩

end Gen

end ProgramGen

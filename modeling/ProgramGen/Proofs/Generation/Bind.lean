import ProgramGen.Proofs.Generation.Complete

/-!
# Bindings that come and go

Type parameters are bound in the scope of a class or function. In a branch a final variable is bound
once more and forgotten at the end; and a variable may be made changeable as soon as it is declared,
which is to declare a changing variable.
-/

namespace ProgramGen

namespace Session

variable {s s' s₁ s₂ : Session} {P : Permit} {ns m : Namespace} {d : Decl} {n : String}
variable {v : VarDecl} {p : TypeParam}

/-! ## Fewer declarations -/

theorem Registered.sublist (hr : s.Registered) (hsub : ∀ m, (s'.decls m).Sublist (s.decls m))
    (hspent : ∀ n, s.Spent n → s'.Spent n)
    (hopened : ∀ m, s'.context.scope m ≠ .empty → s'.Opened m) : s'.Registered where
  opened := hopened
  taken n hn := by
    obtain ⟨m, d, hd, hn⟩ := hn
    exact hspent n (hr.taken n ⟨m, d, (hsub m).subset hd, hn⟩)
  keys m := (hr.keys m).sublist ((hsub m).map _)
  unique m d m' d' hd hd' := hr.unique m d m' d' ((hsub m).subset hd) ((hsub m').subset hd')
  params m f hf p hp m' d hd := hr.params m f ((hsub m).subset hf) p hp m' d ((hsub m').subset hd)
  classScopes m hm d hd := hr.classScopes m hm d ((hsub m).subset hd)
  types m d hd := hr.types m d ((hsub m).subset hd)

/-! ## Type parameters -/

/-- The type parameters that can be bound in a scope. -/
def ParamFits (ns : Namespace) (p : TypeParam) : Prop :=
  (Ty.param p).Plain ∧ (ns.className? ≠ none → ¬IsMarked p.name ∧ (Ty.param p).Tidy)

/-- **Type parameters are bound**, or others in their place. -/
theorem Step.of_decls (hs : s.Sound) (hp : s.Passes s') (hdecls : ∀ m, s'.decls m = s.decls m)
    (hscope : ∀ m, m ≠ ns → s'.context.scope m = s.context.scope m) (hopened : s.Opened ns)
    (hP : P.scopes ns) (hmaking : P.making ns) (hns : ns ≠ .global) (hown : ∀ c ∈ s.classes, c.scope ≠ ns)
    (htypes : ∀ p ∈ (s'.context.scope ns).types, p ∈ (s.context.scope ns).types ∨ ParamFits ns p) :
    s.Step P s' := by
  have hdecls' : s'.decls = s.decls := funext hdecls
  have hclasses : s'.classes = s.classes := classes_of_decls hdecls
  have hmembers : ∀ m, s'.context.fieldsIn m = s.context.fieldsIn m ∧
      s'.context.funcsIn m = s.context.funcsIn m := fun m =>
    ⟨congrArg (List.filterMap _) (hdecls m), congrArg (List.filterMap _) (hdecls m)⟩
  have hl : s.Leads s' :=
    { language := hp.language
      config := hp.config
      spent := hp.spent
      keeps := fun m n => by unfold HasMutable; rw [hdecls']; exact id
      mutables := fun m n _ => by unfold HasMutable; rw [hdecls']; exact id
      members := fun c n => by unfold MutableFieldOf; rw [hclasses]; exact id
      fields := fun n b _ => by unfold HasField; rw [hclasses]; exact id
      finished := fun c hc h => ⟨hclasses ▸ hc, hp.isUnfinished.trans h⟩
      distinct := fun h => by
        show (s'.classes.map _).Nodup
        rwa [hclasses]
      inSight := fun m locals n => by unfold InSight; rw [hdecls']; exact id
      loopLocals := fun n ⟨m, hm, x, hx, hname⟩ => ⟨m, hm, x, show _ ∈ s'.decls m by rwa [hdecls], hname⟩
      funcs := fun m f hf => ⟨f, hdecls' ▸ hf, .refl f⟩ }
  have hr : s'.Registered := by
    refine hs.toRegistered.sublist (fun m => by rw [hdecls]) hp.spent fun m hm n hn => ?_
    by_cases h : m = ns
    · exact hp.spent n (hopened n (h ▸ hn))
    · exact hp.spent n (hs.opened m (hscope m h ▸ hm) n hn)
  have hlocal : s'.localDecls = s.localDecls := by
    unfold localDecls
    rw [hp.frame, show s'.context.declarations _ = _ from hdecls s.frame.ns]
  refine ⟨⟨hl, hp.frame, hp.unfinished, fun m => by rw [hdecls], ?_,
    fun m _ _ _ => by rw [hdecls], fun m _ hnot => by rw [hscope m fun heq => hnot (heq ▸ hmaking)],
    fun m _ _ p hp => hdecls m ▸ hp, fun n _ h => .inl ?_⟩, ?_, fun _ d hd => .inl (hlocal ▸ hd)⟩
  · intro m _ _ hnot
    exact hscope m fun heq => hnot (heq ▸ hP)
  · unfold Taken at h ⊢
    rwa [hdecls'] at h
  · refine hs.advance hl hr hp.pool (hp.canEnter hs) (hp.making hs)
      (fun c _ _ h => hp.isUnfinished.symm.trans h) (fun c hc => ?_) ?_ ?_ (fun c hc => ?_)
      (fun m q hq => ?_) (fun c hc => .inl (hclasses ▸ hc)) (hclasses ▸ hs.ordered)
      (fun d hd _ => .inl (hdecls' ▸ hd)) fun m d hd _ => .inl (hdecls' ▸ hd)
    · rw [hclasses] at hc
      rw [(hmembers _).1, (hmembers _).2]
      exact hs.members c hc
    · rw [hclasses, hdecls']
      exact hs.fields
    · rw [hscope _ (Ne.symm hns)]
      exact hs.globalTypes
    · rw [hclasses] at hc
      rw [hscope _ (hown c hc)]
      exact hs.ownTypes c hc
    · by_cases h : m = ns
      · subst h
        exact htypes q hq
      · exact .inl (hscope m h ▸ hq)

/-! ## Changeable variables -/

/-- To make a variable changeable that has just been declared is to declare a changing one. -/
theorem scope_modify_push {C : Context} {f : Decl → Decl}
    (hfresh : ∀ d ∈ C.declarations ns, d.kind = .var → d.name ≠ v.name) :
    ((C.push ns (.var v)).modify ns .var v.name f).scope m = (C.push ns (f (.var v))).scope m := by
  have hlast : ∀ ds : List Decl, (∀ d ∈ ds, d.kind = .var → d.name ≠ v.name) →
      Context.modifyFirst (Bindings.isNamed .var v.name) f (ds ++ [.var v]) = ds ++ [f (.var v)] := by
    intro ds
    induction ds with
    | nil =>
      intro _
      rw [List.nil_append, Context.modifyFirst, if_pos (by simp [Bindings.isNamed, Decl.kind, Decl.name])]
      rfl
    | cons d ds ih =>
      intro h
      have hd : Bindings.isNamed .var v.name d = false := by
        by_cases hk : d.kind = .var
        · simp [Bindings.isNamed, h d List.mem_cons_self hk]
        · simp [Bindings.isNamed, hk]
      rw [List.cons_append, Context.modifyFirst, hd, if_neg (by simp),
        ih fun d hd => h d (List.mem_cons_of_mem _ hd)]
      rfl
  by_cases hm : ns = m
  · subst hm
    rw [Context.modify, Context.scope_set_self, Context.push, Context.scope_set_self, Context.push,
      Context.scope_set_self]
    exact congrArg (fun ds => Bindings.mk ds (C.scope ns).types) (hlast _ hfresh)
  · rw [Context.scope_modify_of_ne (Ne.symm hm), Context.push, Context.push, Context.scope_set,
      Context.scope_set, if_neg hm, if_neg hm]

/-! ## Shadows -/

/-- The session without the variable of that name in the current scope. -/
def unbind (s : Session) (n : String) : Session := s.withContext (s.context.removeVar s.frame.ns n)

theorem scope_unbind_of_ne (hm : m ≠ s.frame.ns) :
    (s.unbind n).context.scope m = s.context.scope m := by
  unfold unbind Session.withContext Context.removeVar
  rw [Context.scope_set, if_neg (Ne.symm hm)]

theorem types_unbind (s : Session) (n : String) (m : Namespace) :
    ((s.unbind n).context.scope m).types = (s.context.scope m).types := by
  unfold unbind Session.withContext Context.removeVar
  rw [Context.scope_set]
  split
  · rw [‹s.frame.ns = m›]
  · rfl

theorem decls_unbind_self (s : Session) (n : String) :
    (s.unbind n).decls s.frame.ns = (s.decls s.frame.ns).eraseP (Bindings.isNamed .var n) := by
  unfold unbind decls Context.declarations Session.withContext Context.removeVar
  rw [Context.scope_set, if_pos rfl]

theorem decls_unbind_of_ne (hm : m ≠ s.frame.ns) : (s.unbind n).decls m = s.decls m :=
  congrArg Bindings.decls (scope_unbind_of_ne hm)

theorem sublist_unbind (s : Session) (n : String) (m : Namespace) :
    ((s.unbind n).decls m).Sublist (s.decls m) := by
  by_cases hm : m = s.frame.ns
  · subst hm
    rw [decls_unbind_self]
    exact List.eraseP_sublist
  · rw [decls_unbind_of_ne hm]

theorem classes_unbind (hns : s.frame.ns ≠ .global) : (s.unbind n).classes = s.classes := by
  show (s.unbind n).context.classes .global false = s.context.classes .global false
  rw [Context.classes_global, Context.classes_global]
  exact congrArg (fun b : Bindings => b.decls.filterMap Context.asClass?)
    (scope_unbind_of_ne (Ne.symm hns))

theorem spent_unbind {m : String} (h : s.Spent m) : (s.unbind n).Spent m :=
  spent_of_source (s := s) (fun _ h => h) le_rfl le_rfl le_rfl h

/-- Names are distinct, so that no other declaration of the scope goes. -/
theorem mem_decls_unbind (hs : s.Sound) (hv : Decl.var v ∈ s.decls s.frame.ns) (hd : d ∈ s.decls m)
    (hne : d ≠ .var v) : d ∈ (s.unbind v.name).decls m := by
  by_cases hm : m = s.frame.ns
  · subst hm
    rw [decls_unbind_self]
    exact (List.mem_eraseP_of_neg fun hnamed => hne (hs.eq_of_isNamed hv hd hnamed)).mpr hd
  · rwa [decls_unbind_of_ne hm]

/-- The variable itself does go. -/
theorem not_mem_decls_unbind (hs : s.Sound) (hv : Decl.var v ∈ s.decls s.frame.ns) :
    Decl.var v ∉ (s.unbind v.name).decls s.frame.ns := by
  intro hmem
  rw [decls_unbind_self] at hmem
  have hnodup : (s.decls s.frame.ns).Nodup := (hs.keys s.frame.ns).of_map _
  obtain ⟨x, l₁, l₂, -, hx, heq, herase⟩ := List.exists_of_eraseP hv
    (by simp [Bindings.isNamed, Decl.kind, Decl.name] : Bindings.isNamed .var v.name (.var v))
  have hxv : x = .var v :=
    hs.eq_of_isNamed hv (heq ▸ List.mem_append_right _ List.mem_cons_self) hx
  rw [herase] at hmem
  rw [heq, hxv] at hnodup
  have hperm := (List.Perm.nodup_iff List.perm_middle).mp hnodup
  exact (List.nodup_cons.mp hperm).1 hmem

/-- A variable of the name is in sight in a scope around the current one. -/
def Shadows (s : Session) (n : String) : Prop :=
  ∃ m ∈ s.frame.ns.lineage, m ≠ s.frame.ns ∧ ∃ d ∈ s.decls m, d.kind = .var ∧ d.name = n

/-- What is in sight stays so without a variable that shadows another one. -/
theorem inSight_unbind {locals : Prop} (hs : s.Sound) (hv : Decl.var v ∈ s.decls s.frame.ns)
    (hshadows : s.Shadows v.name)
    (h : s.InSight m locals n) : (s.unbind v.name).InSight m locals n := by
  obtain ⟨m₁, hm₁, d, hd, hkind, rfl, hown⟩ := h
  by_cases hdv : m₁ = s.frame.ns ∧ d = .var v
  -- The scope that the variable goes from is below the one that has the other.
  · obtain ⟨rfl, rfl⟩ := hdv
    obtain ⟨m₂, hm₂, hne, d, hd, hkind, hname⟩ := hshadows
    obtain ⟨hwithin₁, -⟩ := Namespace.mem_lineage.mp hm₁
    obtain ⟨hwithin₂, hnonempty⟩ := Namespace.mem_lineage.mp hm₂
    refine ⟨m₂, Namespace.mem_lineage.mpr ⟨Namespace.isWithin_trans hwithin₁ hwithin₂, hnonempty⟩, d,
      by rwa [decls_unbind_of_ne hne], hkind, hname, fun heq => absurd (heq ▸ hwithin₁) fun hback => hne ?_⟩
    exact Namespace.isWithin_antisymm hwithin₂ hback
  · refine ⟨m₁, hm₁, d, ?_, hkind, rfl, hown⟩
    by_cases hm : m₁ = s.frame.ns
    · exact mem_decls_unbind hs hv hd fun heq => hdv ⟨hm, heq⟩
    · rwa [decls_unbind_of_ne hm]

/-- To forget a final variable that shadows another one, outside loops, leaves all that can be assigned or
read. -/
theorem leads_unbind (hs : s.Sound) (hns : s.frame.ns ≠ .global) (hloop : ¬s.frame.ns.IsLoop)
    (hv : Decl.var v ∈ s.decls s.frame.ns) (hfinal : v.isFinal) (hshadows : s.Shadows v.name) :
    s.Leads (s.unbind v.name) where
  language := rfl
  config := rfl
  spent n := spent_unbind
  keeps m n h := by
    obtain ⟨x, hx, hrest⟩ := h
    refine ⟨x, mem_decls_unbind hs hv hx fun heq => ?_, hrest⟩
    obtain rfl := Decl.var.inj heq
    rw [hrest.2] at hfinal
    cases hfinal
  mutables m n _ h := h.imp fun x => And.imp_left fun hx => (sublist_unbind s _ m).subset hx
  members c n := by unfold MutableFieldOf; rw [classes_unbind hns]; exact id
  fields n b _ := by unfold HasField; rw [classes_unbind hns]; exact id
  finished c hc h := ⟨(classes_unbind hns).symm ▸ hc, h⟩
  distinct h := by
    show ((s.unbind v.name).classes.map _).Nodup
    rwa [classes_unbind hns]
  inSight m locals n := inSight_unbind hs hv hshadows
  loopLocals n h := by
    obtain ⟨m, hm, x, hx, hname⟩ := h
    refine ⟨m, hm, x, ?_, hname⟩
    show _ ∈ (s.unbind v.name).decls m
    rwa [decls_unbind_of_ne fun heq => hloop (heq ▸ hm)]
  funcs m f hf := ⟨f, mem_decls_unbind hs hv hf nofun, .refl f⟩

theorem Sound.unbind (hs : s.Sound) (hns : s.frame.ns ≠ .global) (hclass : s.frame.ns.className? = none)
    (hl : s.Leads (s.unbind v.name)) : (s.unbind v.name).Sound := by
  have hclasses : (s.unbind v.name).classes = s.classes := classes_unbind hns
  have hsub := sublist_unbind s v.name
  have hspent : ∀ n, s.Spent n → (s.unbind v.name).Spent n := fun n => spent_unbind
  have hr : (s.unbind v.name).Registered := by
    refine hs.toRegistered.sublist hsub hspent fun m hm n hn => hspent n ?_
    by_cases h : m = s.frame.ns
    · exact hs.here n (h ▸ hn)
    · exact hs.opened m (scope_unbind_of_ne h ▸ hm) n hn
  refine hs.advance hl hr hs.pool ⟨hs.rooted, fun n hn => hspent n (hs.here n hn), hs.body, hs.root⟩
    (fun n hn => hspent n (hs.making n hn)) (fun _ _ _ h => h) (fun c hc => ?_) (fun m f hf => ?_)
    ((types_unbind ..).trans hs.globalTypes) (fun c hc => ?_) (fun m q hq => .inl (types_unbind s _ m ▸ hq))
    (fun c hc => .inl (hclasses ▸ hc)) (hclasses ▸ hs.ordered)
    (fun d hd _ => .inl ((hsub _).subset hd)) fun m d hd _ => .inl ((hsub _).subset hd)
  · rw [hclasses] at hc
    have hne : c.scope ≠ s.frame.ns := by
      intro heq
      rw [← heq, hs.className?_scope hc] at hclass
      cases hclass
    unfold Context.fieldsIn Context.funcsIn
    rw [show (s.unbind v.name).context.declarations c.scope = _ from decls_unbind_of_ne hne]
    exact hs.members c hc
  · rw [hclasses]
    exact hs.fields m f ((hsub m).subset hf)
  · rw [hclasses] at hc
    exact (types_unbind ..).trans (hs.ownTypes c hc)

/-- **A final variable that was bound in a scope of its own is forgotten.** -/
theorem Step.removeShadow {C : Context} (hempty : s.decls s.frame.ns = [])
    (hns : s.frame.ns ≠ .global) (hloop : ¬s.frame.ns.IsLoop) (hshadows : s.Shadows v.name)
    (hclass : s.frame.ns.className? = none) (hP : P.scopes s.frame.ns)
    (hC : ∀ m, C.scope m = (s.context.push s.frame.ns (.var v)).scope m) (hfinal : v.isFinal)
    (h₁ : s.Extends P (s.withContext C)) (h₂ : (s.withContext C).Step P s₂) :
    s.Step P (s₂.withContext (s₂.context.removeVar s.frame.ns v.name)) ∧
      s₂.Leads (s₂.withContext (s₂.context.removeVar s.frame.ns v.name)) := by
  have h := h₁.trans h₂.toExtends
  have hframe : s₂.frame = s.frame := h.frame
  have hs₂ := h₂.sound
  have hunbind : s₂.withContext (s₂.context.removeVar s.frame.ns v.name) = s₂.unbind v.name := by
    unfold unbind
    rw [hframe]
  rw [hunbind]
  -- The shadow is the only declaration of its scope when the branch starts.
  have hdecls₁ : (s.withContext C).decls s.frame.ns = [.var v] := by
    rw [declarations_of_push (s := s) hC, hempty, if_pos rfl, List.nil_append]
  have hshadow : Decl.var v ∈ s₂.decls s₂.frame.ns := by
    have hmem : Decl.var v ∈ (s.withContext C).decls s.frame.ns := by simp [hdecls₁]
    obtain ⟨d, hd, heq⟩ := List.mem_map.mp ((h₂.decls s.frame.ns).subset (List.mem_map_of_mem hmem))
    rw [hframe]
    exact Decl.eq_of_outline_var heq.symm rfl ▸ hd
  have hshadows₂ : s₂.Shadows v.name := by
    obtain ⟨m, hm, hne, d, hd, hkind, hname⟩ := hshadows
    obtain ⟨d', hd', heq⟩ := List.mem_map.mp ((h.decls m).subset (List.mem_map_of_mem hd))
    exact ⟨m, by rwa [hframe], by rwa [hframe], d', hd', (Decl.kind_eq_of_outline heq).trans hkind,
      (Decl.name_eq_of_outline heq).trans hname⟩
  have hl : s₂.Leads (s₂.unbind v.name) :=
    leads_unbind hs₂ (by rwa [hframe]) (by rwa [hframe]) hshadow hfinal hshadows₂
  have hother : ∀ m, m ≠ s.frame.ns → m ≠ s₂.frame.ns := fun m hm => by rwa [hframe]
  have hextends : s.Extends P (s₂.unbind v.name) :=
    { toLeads := h.toLeads.trans hl
      frame := h.frame
      unfinished := h.unfinished
      decls := fun m => by
        by_cases hm : m = s.frame.ns
        · rw [hm, hempty]
          exact List.nil_prefix
        · rw [decls_unbind_of_ne (hother m hm)]
          exact h.decls m
      same := fun m hm hglobal hnot => by
        have hm' : m ≠ s.frame.ns := fun heq => hnot (heq ▸ hP)
        exact (scope_unbind_of_ne (hother m hm')).trans (h.same m hm hglobal hnot)
      inside := fun m hm hmclass hnot => by
        have hm' : m ≠ s.frame.ns := fun heq => hmclass (heq ▸ hclass)
        rw [decls_unbind_of_ne (hother m hm')]
        exact h.inside m hm hmclass hnot
      types := fun m hm hnot => (types_unbind ..).trans (h.types m hm hnot)
      params := fun m hm hnot p hp => h.params m hm hnot p ((sublist_unbind s₂ _ m).subset hp)
      taken := fun n hn htaken => by
        obtain ⟨m, d, hd, hn'⟩ := htaken
        exact h.taken n hn ⟨m, d, (sublist_unbind s₂ _ m).subset hd, hn'⟩ }
  refine ⟨⟨hextends, hs₂.unbind (by rwa [hframe]) (by rwa [hframe]) hl, fun hglobal d hd => ?_⟩, hl⟩
  obtain ⟨hmem, hlocal⟩ := List.mem_filter.mp hd
  have hmem : d ∈ (s₂.unbind v.name).decls s₂.frame.ns := hmem
  have hlocal₂ : d ∈ s₂.localDecls :=
    List.mem_filter.mpr ⟨(sublist_unbind s₂ _ _).subset hmem, hlocal⟩
  rcases h₂.locals hglobal d hlocal₂ with hd₁ | hfits
  · -- Only the shadow was there, and it is gone.
    have hd₁ : d ∈ (s.withContext C).decls s.frame.ns := List.mem_of_mem_filter hd₁
    rw [hdecls₁, List.mem_singleton] at hd₁
    exact absurd (hd₁ ▸ hmem) (not_mem_decls_unbind hs₂ hshadow)
  · exact .inr (hfits.mono hl rfl)

end Session

end ProgramGen

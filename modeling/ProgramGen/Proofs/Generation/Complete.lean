import ProgramGen.Proofs.Generation.Attach

/-!
# Completed functions

A function that was registered without its body gets one: its outline stays what it was, in its scope
and in its class.
-/

namespace ProgramGen

namespace Session

variable {s s' : Session} {P : Permit} {ns m : Namespace} {d d' : Decl} {n : String} {c : ClassDecl}
variable {f f₀ : FuncDecl}

/-- A declaration is the only one of its kind and name in its scope. -/
theorem Sound.eq_of_isNamed (hs : s.Sound) (hd : d ∈ s.decls ns) (hd' : d' ∈ s.decls ns)
    (h : Bindings.isNamed d.kind d.name d') : d' = d := by
  simp only [Bindings.isNamed, Bool.and_eq_true, beq_iff_eq] at h
  exact List.inj_on_of_nodup_map (hs.keys ns) hd' hd (Prod.ext h.1 h.2)

/-- A function that takes the place of what was registered of it. -/
structure Replaces (P : Permit) (s : Session) (ns : Namespace) (f₀ f : FuncDecl) : Prop where
  mem : .func f₀ ∈ s.decls ns
  outline : Decl.outline (.func f) = Decl.outline (.func f₀)
  permitted : ns = .global ∨ P.scopes ns
  shapes : s.Shapes (.func f)

/-- The symbol table with the function in its place. -/
def replaced (s : Session) (ns : Namespace) (f : FuncDecl) : Context :=
  s.context.modifyFunc ns f.name fun _ => f

theorem declarations_replaced : (s.replaced ns f).declarations m = if m = ns then
    Context.modifyFirst (Bindings.isNamed .func f.name) (fun | .func _ => .func f | d => d)
      (s.decls ns) else s.decls m :=
  Context.declarations_modify

theorem filterMap_replaced {α : Type} {sel : Decl → Option α} (hsel : ∀ g, sel (.func g) = none) :
    ((s.replaced ns f).declarations m).filterMap sel = (s.decls m).filterMap sel := by
  rw [declarations_replaced]
  split
  · rename_i hm
    subst hm
    generalize s.decls m = ds
    induction ds with
    | nil => rfl
    | cons d ds ih =>
      rw [Context.modifyFirst]
      split
      · rename_i hnamed
        cases d with
        | func g => rw [List.filterMap_cons, List.filterMap_cons, hsel, hsel]
        | _ => simp [Bindings.isNamed, Decl.kind] at hnamed
      · rw [List.filterMap_cons, List.filterMap_cons, ih]
  · rfl

theorem scope_replaced_of_ne (hm : m ≠ ns) : (s.replaced ns f).scope m = s.context.scope m :=
  Context.scope_modify_of_ne hm

namespace Replaces

variable (h : Replaces P s ns f₀ f)
include h

theorem name_eq : f.name = f₀.name := Decl.name_eq_of_outline h.outline

theorem opened (hs : s.Sound) : s.Opened ns := by
  refine hs.opened ns fun hempty => ?_
  have hmem := h.mem
  rw [show s.decls ns = [] from congrArg Bindings.decls hempty] at hmem
  cases hmem

theorem outlines (hs : s.Sound) :
    ((s.replaced ns f).declarations m).map Decl.outline = (s.decls m).map Decl.outline := by
  rw [declarations_replaced]
  split
  · rename_i hm
    subst hm
    refine Context.map_modifyFirst fun d hd hnamed => ?_
    rw [h.name_eq] at hnamed
    rw [hs.eq_of_isNamed h.mem hd hnamed]
    exact h.outline
  · rfl

theorem mem_replaced (hd : d ∈ (s.replaced ns f).declarations m) :
    d ∈ s.decls m ∨ (m = ns ∧ d = .func f) := by
  rw [declarations_replaced] at hd
  split at hd
  · rename_i hm
    subst hm
    rcases Context.mem_modifyFirst hd with hd | ⟨d', -, hnamed, rfl⟩
    · exact .inl hd
    · simp only [Bindings.isNamed, Bool.and_eq_true, beq_iff_eq] at hnamed
      cases d' with
      | func _ => exact .inr ⟨rfl, rfl⟩
      | _ => cases hnamed.1
  · exact .inl hd

/-- **A function that is no method is completed.** -/
theorem step (hs : s.Sound) (hp : s.Passes s') (hcontext : s'.context = s.replaced ns f)
    (hclass : ns.className? = none)
    (htop : ns = .global → s.Fits .global none noTargets (f.places ·))
    (hhere : ns = s.frame.ns → ns ≠ .global → s.DeclFits (.func f)) : s.Step P s' := by
  have hdecls : ∀ m, s'.decls m = (s.replaced ns f).declarations m := fun m => by
    unfold decls
    rw [hcontext]
  have hclasses : s'.classes = s.classes := by
    show s'.context.classes .global false = s.context.classes .global false
    rw [hcontext, Context.classes_global, Context.classes_global]
    exact filterMap_replaced fun _ => rfl
  have hinside : ∀ m, m.className? ≠ none → s'.context.scope m = s.context.scope m := fun m hm => by
    rw [hcontext]
    exact scope_replaced_of_ne fun heq => hm (heq ▸ hclass)
  suffices hchange : Change P s s' ns [] id [] from hchange.step hp hs
  refine
    { grown := fun m => by rw [hdecls, h.outlines hs]; split <;> simp
      one := Nat.zero_le _
      welcome := by simp
      opened := fun n hn => hp.spent n (h.opened hs n hn)
      spent := by simp
      permitted := h.permitted.imp_right .inl
      taken := by simp
      onlyFields := by simp
      params := by simp
      mutables := by simp
      others := fun m hm _ => by rw [hcontext, scope_replaced_of_ne hm]
      types := fun m => by rw [hcontext, replaced, Context.modifyFunc, Context.types_modify]
      inside := fun m _ hm _ => by unfold decls Context.declarations; rw [hinside m hm]
      classes := by rw [hclasses, List.map_id, List.append_nil]
      header := fun _ _ => ⟨rfl, rfl, rfl⟩
      finished := fun _ _ _ => rfl
      fields := fun _ _ _ hf => hf
      fieldNames := fun _ _ _ hf => .inl hf
      newFields := by simp
      newOne := Nat.zero_le _
      newTypes := by simp
      newSupers := by simp
      members := fun x hx => ?members
      fieldScopes := fun m g hg => ?fieldScopes
      classOk := fun _ x hx => .inl (hclasses ▸ hx)
      trees := fun hl d hd _ => ?trees
      shaped := fun m d hd _ => ?shaped
      locals := fun hl hglobal d hd => ?locals }
  case members =>
    rw [hclasses] at hx
    exact hs.inStep_of_same hx <| congrArg Bindings.decls <|
      hinside x.scope (by rw [hs.className?_scope hx]; simp)
  case fieldScopes =>
    rw [hclasses]
    rw [hdecls] at hg
    rcases h.mem_replaced hg with hg | ⟨-, hg⟩
    · exact hs.fields m g hg
    · cases hg
  case trees =>
    rw [hdecls] at hd
    rcases h.mem_replaced hd with hd | ⟨hm, rfl⟩
    · exact .inl hd
    · exact .inr ((htop hm.symm).mono hl (.refl _))
  case shaped =>
    rw [hdecls] at hd
    refine (h.mem_replaced hd).imp_right ?_
    rintro ⟨-, rfl⟩
    exact h.shapes
  case locals =>
    obtain ⟨hmem, hlocal⟩ := List.mem_filter.mp hd
    have hmem : d ∈ s'.decls s.frame.ns := hp.frame ▸ hmem
    rw [hdecls] at hmem
    rcases h.mem_replaced hmem with hmem | ⟨hm, rfl⟩
    · exact .inl (List.mem_filter.mpr ⟨hmem, hlocal⟩)
    · exact .inr ((hhere hm.symm (hm ▸ hglobal.ne_global)).mono hl hp.frame)

end Replaces

/-! ## Methods -/

section Methods

variable (hcontext : s'.context = (s.replaced c.scope f).modifyClass .global c.name (·.withFunc f))
include hcontext

theorem classes_completed (hs : s.Sound) :
    s'.classes = s.classes.map fun x => if x.name = c.name then x.withFunc f else x := by
  have hbefore : (s.replaced c.scope f).classes .global false = s.context.classes .global false := by
    rw [Context.classes_global, Context.classes_global]
    exact filterMap_replaced fun _ => rfl
  rw [← hs.modifyFirst_classes]
  show s'.context.classes .global false = Context.modifyFirst _ _ (s.context.classes .global false)
  rw [hcontext, Context.classes_modifyClass, hbefore]

theorem scope_completed (hm : m ≠ .global) (hmc : m ≠ c.scope) : s'.context.scope m = s.context.scope m := by
  rw [hcontext, Context.modifyClass, Context.scope_modify_of_ne hm, scope_replaced_of_ne hmc]

/-- The class has the method that its scope has. -/
theorem inStep_completed (hs : s.Sound) (hc : c ∈ s.classes) :
    (c.withFunc f).fields = s'.context.fieldsIn (c.withFunc f).scope ∧
      (c.withFunc f).funcs = s'.context.funcsIn (c.withFunc f).scope := by
  obtain ⟨hfields, hfuncs⟩ := hs.members c hc
  have hown : s'.context.declarations (c.withFunc f).scope =
      (s.replaced c.scope f).declarations c.scope := by
    show s'.context.declarations c.scope = _
    rw [hcontext, declarations_modifyClass, if_neg (scope_ne_global c)]
  unfold Context.fieldsIn at hfields ⊢
  unfold Context.funcsIn at hfuncs ⊢
  rw [hown]
  refine ⟨?fields, ?funcs⟩
  case fields =>
    rw [filterMap_replaced fun _ => rfl]
    exact hfields
  case funcs =>
    rw [declarations_replaced, if_pos rfl]
    refine Eq.trans ?_ (Context.filterMap_modifyFirst (q := (·.name == f.name)) (g := fun _ => f)
      (fun y g hg => ?_) fun y hy => ?_).symm
    · show Context.modifyFirst _ _ c.funcs = _
      rw [hfuncs]
    · cases y <;> cases hg
      exact ⟨rfl, rfl⟩
    · cases y <;> first | rfl | cases hy

/-- **A method is completed.** -/
theorem Replaces.stepMethod (h : Replaces P s c.scope f₀ f) (hs : s.Sound) (hp : s.Passes s')
    (hc : c ∈ s.classes) (hmaking : s.isUnfinished c.name) (hP : P.making c.scope)
    (hf : s.MethodOk c f) : s.Step P s' := by
  have hclasses := classes_completed hcontext hs
  have hmem : ∀ {m d}, d ∈ s'.decls m → d.kind ≠ .cls → d ∈ s.decls m ∨ (m = c.scope ∧ d = .func f) := by
    intro m d hd hkind
    have hd : d ∈ s'.context.declarations m := hd
    rw [hcontext] at hd
    exact h.mem_replaced (mem_declarations_modifyClass hd hkind)
  have hin : ∀ x ∈ s'.classes, (x ∈ s.classes ∧ x.name ≠ c.name) ∨ x = c.withFunc f := fun x hx =>
    hs.mem_changed hc (hclasses ▸ hx)
  suffices hchange : Change P s s' c.scope []
      (fun x => if x.name = c.name then x.withFunc f else x) [] from hchange.step hp hs
  refine
    { grown := fun m => ?grown
      one := Nat.zero_le _
      welcome := by simp
      opened := fun n hn => hp.spent n (h.opened hs n hn)
      spent := by simp
      permitted := h.permitted.imp_right .inl
      taken := by simp
      onlyFields := by simp
      params := by simp
      mutables := by simp
      others := fun m hm hglobal => scope_completed hcontext hglobal hm
      types := fun m => by
        rw [hcontext, Context.modifyClass, Context.types_modify, replaced, Context.modifyFunc,
          Context.types_modify]
      inside := fun m _ hm hnot => ?inside
      classes := by rw [hclasses, List.append_nil]
      header := fun x _ => ?header
      finished := fun x hx hfinished => if_neg fun hname => ?finished
      fields := fun x _ g hg => ?fields
      fieldNames := fun x _ g hg => ?fieldNames
      newFields := by simp
      newOne := Nat.zero_le _
      newTypes := by simp
      newSupers := by simp
      members := fun x hx => ?members
      fieldScopes := fun m g hg => ?fieldScopes
      classOk := fun hl x hx => ?classOk
      trees := fun _ d hd hkind => ?trees
      shaped := fun m d hd hkind => ?shaped
      locals := fun _ hns d hd => .inl ?locals }
  case grown =>
    show (s'.context.declarations m).map Decl.outline = _
    have hcls : ∀ x : ClassDecl, Decl.outline (.cls (x.withFunc f)) = Decl.outline (.cls x) :=
      fun _ => rfl
    rw [hcontext, outline_modifyClass hcls, h.outlines hs]
    split <;> simp
  case inside =>
    have hmc : m ≠ c.scope := fun heq => hnot (heq ▸ hP)
    have hmg : m ≠ .global := by rintro rfl; exact hm rfl
    unfold decls Context.declarations
    rw [scope_completed hcontext hmg hmc]
  case header => split <;> exact ⟨rfl, rfl, rfl⟩
  case finished =>
    rw [hname, hmaking] at hfinished
    cases hfinished
  case fields => split <;> exact hg
  case fieldNames => split at hg <;> exact .inl hg
  case members =>
    rcases hin x hx with ⟨hx, hname⟩ | rfl
    · exact hs.inStep_of_same hx <| congrArg Bindings.decls <|
        scope_completed hcontext (scope_ne_global x) fun heq => hname (scope_injective heq)
    · exact inStep_completed hcontext hs hc
  case fieldScopes =>
    rcases hmem hg (fun h => by cases h) with hg | ⟨-, hg⟩
    · obtain ⟨x, hx, rfl⟩ := hs.fields m g hg
      refine ⟨if x.name = c.name then x.withFunc f else x, ?_, ?_⟩
      · rw [hclasses]
        exact List.mem_map.mpr ⟨x, hx, rfl⟩
      · split <;> rfl
    · cases hg
  case classOk =>
    rcases hin x hx with ⟨hx, -⟩ | rfl
    · exact .inl hx
    · refine .inr (hs.classOk_members hc hl (hp.isUnfinished.trans hmaking) (fun g hg => .inl hg)
        fun g hg => ?_)
      rcases Context.mem_modifyFirst hg with hg | ⟨_, _, _, rfl⟩
      · exact .inl hg
      · exact .inr hf
  case trees =>
    rcases hmem hd hkind with hd | ⟨heq, -⟩
    · exact .inl hd
    · exact absurd heq.symm (scope_ne_global c)
  case shaped =>
    refine (hmem hd hkind).imp_right ?_
    rintro ⟨-, rfl⟩
    exact h.shapes
  case locals =>
    obtain ⟨hd, hlocal⟩ := List.mem_filter.mp hd
    have hd : d ∈ s'.context.declarations s.frame.ns := hp.frame ▸ hd
    rw [hcontext, declarations_modifyClass, if_neg hns.ne_global, declarations_replaced,
      if_neg (hs.ne_scope_of_isLocal hns hc)] at hd
    exact List.mem_filter.mpr ⟨hd, hlocal⟩

end Methods

end Session

end ProgramGen

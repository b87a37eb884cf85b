import ProgramGen.Proofs.Generation.ClassBody

/-!
# Classes

A class is named, given type parameters and a superclass, registered, and filled with members. Its
superclass was finished before; its constructor arguments stand outside of the class that is made.
-/

namespace ProgramGen

open Session

variable {s s' s₀ s₁ s₂ : Session} {t u : Ty} {e : Engine} {P : Permit} {n : String} {c d h : ClassDecl}
variable {m : Subst} {p q : TypeParam} {ps : List TypeParam} {a : Expr} {i : Nat}
variable {places : Visibility → List (Visibility × Expr)}

namespace Ty

/-- The type of an object is no type of the language itself. -/
theorem isBuiltin_of_isObject (h : t.isObject) : t.isBuiltin = false := by
  cases t <;> simp_all [Ty.isObject, Ty.isBuiltin]

theorem IsOf.isObject (h : t.IsOf d) : t.isObject := by
  rcases h with ⟨hnone, rfl⟩ | ⟨args, rfl, -⟩
  · simp [ClassDecl.type, hnone, Ty.isObject]
  · rfl

end Ty

namespace Session

/-! ## Roots -/

/-- An answer to a request for a value can be a root of the program. -/
theorem Answers.root (h : s.Answers i t a) (ht : t.isVoid = false) : s.FitsHere noTargets a ∧ s.ShapesRoot a :=
  have hstands := h.value ht
  ⟨hstands.fits, (hstands.depth.trans exprDepth_le_initDepth.2).trans initDepth_le_rootDepth, hstands.value⟩

/-- What fits in the scope of a class that is not there yet fits at the top level. -/
theorem Sound.fits_newClass (hs : s.Sound) (h : s.Fits (Namespace.global.child n) none noTargets places)
    (hn : startsUppercase n) (hfree : ∀ c ∈ s.classes, c.name ≠ n) : s.Fits .global none noTargets places := by
  refine h.within (g := id) (fun s' _ v hv => hv.child.targets_mono fun x hx => hx.imp_left fun hshared => ?_)
    fun s' _ v hv x hx => ?_
  · rcases hshared with hglobal | ⟨className, rest, hsegments, -, c, hc, hname, -⟩
    · exact .inl hglobal
    · obtain ⟨rfl, -⟩ : n = className ∧ rest = [] := by
        have : [Namespace.globalSegment, n] = Namespace.globalSegment :: className :: rest := hsegments
        simpa [eq_comm] using this
      exact absurd hname (hfree c hc)
  -- The scope of a class has only fields to read, and those of a class that is not there are not there either.
  · refine hx.of_child.elim (hv x) fun ⟨d, hd, hkind, _⟩ => ?_
    obtain ⟨f, rfl⟩ := hs.classScopes _ (by rw [Namespace.className?_classScope hn]; simp) d hd hkind
    obtain ⟨c, hc, hscope⟩ := hs.fields _ f hd
    exact absurd (Namespace.child_injective hscope).2.symm (hfree c hc)

end Session

namespace Gen

/-- Arguments for the constructor of a superclass. -/
theorem genSuperArgs_ensures (hs : s.Sound) (he : s.Served e 0) (hfields : ∀ f ∈ c.fields, (f.ty.subst m).Plain)
    (hP : P.Covers s.frame.ns) :
    (genSuperArgs e c m).Ensures (Step P) s fun as s' => as.length = c.fields.length ∧
      ∀ a ∈ as, s'.FitsHere noTargets a ∧ s'.ShapesRoot a := by
  unfold genSuperArgs
  refine .inSameScope hs ⟨rfl, rfl, rfl, id, le_rfl⟩ fun s₀ hs₀ hsound => ?_
  have he₀ : s₀.Served e 0 := hs₀ ▸ he.withFrame le_rfl
  have hP₀ : P.Covers s₀.frame.ns := by rwa [hs₀]
  refine (Ensures.mapM (G := fun _ a s' => s'.FitsHere noTargets a ∧ s'.ShapesRoot a) (.refl hsound)
    (fun f hf s₁ h₁ => ?_) fun _ a s₁ s₂ h₁ ha =>
      ⟨ha.1.mono h₁.toLeads h₁.frame (.refl _), h₁.toLeads.shapesRoot ha.2⟩).imp fun as s' h' has => ⟨h', ?_⟩
  · have hplain := hfields f hf
    exact ((he₀.step h₁).expr h₁.sound (.inl hplain) (h₁.frame ▸ hP₀)).mono fun a _ _ ha => ha.root hplain.isVoid
  · refine ⟨has.length_eq.symm, fun a ha => ?_⟩
    obtain ⟨i, hi, rfl⟩ := List.mem_iff_getElem.mp ha
    obtain ⟨hfits, hroot⟩ := (List.forall₂_iff_get.mp has).2 i (has.length_eq ▸ hi) hi
    refine ⟨?_, hroot.depth, hroot.value⟩
    unfold FitsHere at hfits ⊢
    rw [h'.frame, hs₀] at hfits
    exact fits_withFrame.mpr hfits

/-- A class applied to arguments that can be named here. -/
theorem instantiateClass_ensures (hs : s.Sound) (hd : d ∈ s.classes) :
    (instantiateClass d).Ensures OnlyDraws s fun r _ => ∀ x ∈ r, x.1.IsOf d ∧ Chosen s IsInvariant x.1 ∧
      x.2.All Ty.Plain := by
  unfold instantiateClass
  split
  · refine (instantiate_ensures hs (hs.applicable_ctor hd) .empty fun _ => rfl).mono fun r _ _ hr x hx => ?_
    obtain ⟨-, hall, ⟨args, harg, hlength⟩, hchosen⟩ := hr x hx
    exact ⟨.inr ⟨args, harg, hlength⟩, hchosen rfl, hall⟩
  · rename_i hnot
    have hnone : d.typeParams = [] := by simpa [ClassDecl.isGeneric] using hnot
    refine .pure (refl_of OnlyDraws s) fun x hx => ?_
    cases hx
    refine ⟨.inl ⟨hnone, rfl⟩, ?_, .empty⟩
    have htype : d.type = .simple d.name d.supertypes := by simp [ClassDecl.type, hnone]
    rw [htype]
    exact chosen_ground (hs.plain_simple hd) rfl

/-- A superclass that was found for a new class. -/
structure SuperFound (s s' : Session) (onlyInterfaces : Bool) (sup : SuperDecl) : Prop where
  cls : ∃ d, s.IsOpen d ∧ d.name = sup.ty.name ∧ (onlyInterfaces → d.isInterface) ∧
    sup.args.map List.length = if d.isInterface then none else some d.fields.length
  plain : sup.ty.Plain
  object : sup.ty.isObject
  args : ∀ a ∈ sup.args.getD [], s'.FitsHere noTargets a ∧ s'.ShapesRoot a

/-- A supertype that a class may have that can be extended itself. -/
def Extendable (s : Session) (t : Ty) : Prop := Chosen s IsInvariant t ∧ ∃ d, s.IsOpen d ∧ t.IsOf d

/-- **A superclass is chosen among the finished classes.** -/
theorem selectSuperclass_ensures {onlyInterfaces : Bool} (hs : s.Sound) (he : s.Served e 0)
    (hP : P.Covers s.frame.ns) :
    (selectSuperclass e onlyInterfaces).Ensures (Step P) s fun r s' =>
      ∀ sup ∈ r, SuperFound s s' onlyInterfaces sup ∧ Extendable s sup.ty := by
  unfold selectSuperclass
  refine .get ?_
  extract_lets candidates
  split
  · exact .pure (.refl hs) nofun
  refine (Ensures.coin.drawStep hs).bind fun alone s₁ h₁ hdraws => ?_
  obtain ⟨⟨stream, rfl⟩, -⟩ := hdraws
  split
  · exact .pure (.refl h₁.sound) nofun
  refine (Ensures.pick.drawStep h₁.sound).bind fun chosen s₂ h₂ hdraws => ?_
  obtain ⟨⟨stream, rfl⟩, -, hmem⟩ := hdraws
  split
  · exact .pure (.refl h₂.sound) nofun
  rename_i d
  -- A candidate is finished and open to subclasses, so it may stand above a new class.
  obtain ⟨hd, hopen⟩ := List.mem_filter.mp (hmem d rfl)
  obtain ⟨hd, hfinished⟩ := List.mem_filter.mp hd
  simp only [Bool.and_eq_true, Bool.not_eq_true', Bool.or_eq_true] at hopen hfinished
  refine ((instantiateClass_ensures h₂.sound hd).drawStep h₂.sound).bind fun r s₃ h₃ hdraws => ?_
  obtain ⟨⟨stream, rfl⟩, hr⟩ := hdraws
  split
  · exact .pure (.refl h₃.sound) nofun
  rename_i t m
  obtain ⟨hof, hchosen, hall⟩ := hr _ rfl
  have hplain : ∀ f ∈ d.fields, (f.ty.subst m).Plain := fun f hf =>
    (hs.types _ _ (hs.field_mem hd hf)).subst_all hall
  -- An interface takes no arguments, a class one for each of its fields.
  have hfound : ∀ (args : Option (List Expr)) (s' : Session), args.map List.length =
      (if d.isInterface then none else some d.fields.length) →
      (∀ a ∈ args.getD [], s'.FitsHere noTargets a ∧ s'.ShapesRoot a) →
      SuperFound s s' onlyInterfaces ⟨t, args⟩ ∧ Extendable s t :=
    fun args s' hlength hargs => ⟨⟨⟨d, ⟨hd, hfinished, hopen.1⟩, hof.name_eq,
      fun honly => hopen.2.resolve_left (by simp [honly]), hlength⟩, hchosen.plain, hof.isObject, hargs⟩,
      hchosen.of_atStream.of_atStream, d, ⟨hd, hfinished, hopen.1⟩, hof⟩
  split
  · refine .pass (.pure (.refl h₃.sound) fun sup hsup => ?_)
    cases hsup
    exact hfound none _ (by simp [*]) nofun
  · refine Ensures.bind (Q := fun r s' => ∃ args : List Expr, r = some args ∧ args.length = d.fields.length ∧
        ∀ a ∈ args, s'.FitsHere noTargets a ∧ s'.ShapesRoot a)
      (Ensures.map ((genSuperArgs_ensures h₃.sound (((he.step h₁).step h₂).step h₃) hplain hP).mono
        fun args _ _ hargs => ⟨args, rfl, hargs⟩)) fun r s₄ h₄ hargs => ?_
    obtain ⟨args, rfl, hlength, hargs⟩ := hargs
    refine .pure (.refl h₄.sound) fun sup hsup => ?_
    cases hsup
    exact hfound (some args) _ (by simp [*]) hargs

end Gen

/-! ## Registration -/

/-- What a class adds to that is registered but has no members yet. -/
def Permit.header (name : String) : Permit :=
  ⟨(· = Namespace.global.child name), fun _ => False, (· = name)⟩

/-- What a new class adds to. -/
def Permit.ofClass (name : String) : Permit where
  scopes m := m = Namespace.global.child name ∨ ∃ n, m = (Namespace.global.child name).child n
  making m := m = Namespace.global.child name ∨ ∃ n, m = (Namespace.global.child name).child n
  names := (· = name)

namespace Session

theorem allows_header : s.Allows (.within (Namespace.global.child n)) (.header n) :=
  ⟨fun _ _ _ h => h, fun _ _ h => h, fun _ _ h => h.elim⟩

theorem allows_ofClass_header : s.Allows (.header n) (.ofClass n) :=
  ⟨fun _ _ _ h => .inl h, fun _ _ h => h.elim, fun _ _ h => .inl h⟩

theorem allows_ofClass_body {N : String → Prop} (hscope : h.scope = Namespace.global.child n) :
    s.Allows (.body h.scope N) (.ofClass n) where
  scopes _ _ _ hm := hm.imp (·.trans hscope) fun ⟨x, _, heq⟩ => ⟨x, hscope ▸ heq⟩
  making _ _ hm := hm.imp (·.trans hscope) fun ⟨x, _, heq⟩ => ⟨x, hscope ▸ heq⟩
  names _ _ hn := hn.elim

/-- The name of a new class is in no scope that is in use. -/
theorem allows_of_unspent (hn : ¬s.Spent n) : s.Allows (.ofClass n) P where
  scopes ns ho _ hns := by
    refine absurd (ho n ?_) hn
    rcases hns with rfl | ⟨x, rfl⟩
    · exact List.mem_cons_of_mem _ List.mem_cons_self
    · exact List.mem_append_left _ (List.mem_cons_of_mem _ List.mem_cons_self)
  making ns ho hns := by
    refine absurd (ho n ?_) hn
    rcases hns with rfl | ⟨x, rfl⟩
    · exact List.mem_cons_of_mem _ List.mem_cons_self
    · exact List.mem_append_left _ (List.mem_cons_of_mem _ List.mem_cons_self)
  names x hx hxn := absurd (hxn ▸ hx) hn

/-- The session is in the scope of a class that is not there yet. -/
structure NewClass (s : Session) (n : String) (ps : List TypeParam) : Prop where
  ns : s.frame.ns = Namespace.global.child n
  root : s.frame.captureRoot = none
  spent : s.Spent n
  free : ¬s.Taken n
  making : s.isUnfinished n
  upper : startsUppercase n
  foreign : ∀ (l : Language) (d : TypeCtor), l.HasClass d → d.name ≠ n
  params : ClassParams ps
  types : (s.context.scope (Namespace.global.child n)).types = ps
  empty : s.decls (Namespace.global.child n) = []
  inner : ∀ x, s.Spent x → s.context.scope ((Namespace.global.child n).child x) = .empty

namespace NewClass

variable (hnew : s.NewClass n ps)
include hnew

theorem free_class : ∀ c ∈ s.classes, c.name ≠ n := fun _ hc hname =>
  hnew.free ⟨_, _, Context.mem_classes_global.mp hc, List.mem_singleton.mpr hname.symm⟩

/-- Only its type parameters are seen there. -/
theorem inMethod (hs : s.Sound) (hps : c.typeParams = ps) : s.InMethod c := by
  refine inMethod_of_sees (hps ▸ hnew.params) fun q ⟨m, hm, hq⟩ => ?_
  rcases Namespace.mem_lineage_child_global (hnew.ns ▸ hm) with rfl | rfl
  · exact hps ▸ hnew.types ▸ hq
  · rw [hs.globalTypes] at hq
    cases hq

end NewClass

/-- A new class without members. -/
def classHeader (n : String) (kind : ClassKind) (ps : List TypeParam) (isFinal : Bool)
    (superclass : Option SuperDecl) : ClassDecl :=
  { ClassDecl.plain n kind with typeParams := ps, supers := superclass.toList, isFinal := isFinal }

theorem mem_superArgs_classHeader {kind : ClassKind} {isFinal : Bool} {superclass : Option SuperDecl}
    (ha : a ∈ (classHeader n kind ps isFinal superclass).superArgs) : ∃ sup ∈ superclass, a ∈ sup.args.getD [] := by
  obtain ⟨sup, hsup, ha⟩ := List.mem_flatMap.mp ha
  exact ⟨sup, Option.mem_toList.mp hsup, ha⟩

end Session

/-- What is required of a class with the type parameters `ps`. -/
structure ClassSpec.Suits (spec : ClassSpec) (ps : List TypeParam) : Prop where
  signature : spec.signature = none
  field : ∀ t ∈ spec.fieldType, t.Plain ∧ t.Within ps IsInvariant
  ret : ∀ t ∈ spec.returnType, t.Requested ∧ (t.isVoid ∨ ∀ c : ClassDecl, c.typeParams = ps → ResultFits c t)

namespace Gen

section Registration

variable {kind : ClassKind} {isFinal : Bool} {superclass : Option SuperDecl}

/-- What is found as a superclass suits the class. -/
theorem SuperFound.suits {sup : SuperDecl} (h : SuperFound s s' (kind == .interface) sup) (hc : c.kind = kind) :
    ∃ d, s.IsOpen d ∧ sup.Suits c d := by
  obtain ⟨d, hopen, hname, honly, hargs⟩ := h.cls
  refine ⟨d, hopen, hname, Ty.isBuiltin_of_isObject h.object, hopen.2.2, fun hinterface => honly (beq_iff_eq.mpr ?_), hargs⟩
  exact hc ▸ of_decide_eq_true hinterface

/-- **A class can be registered** with the superclass that was found for it. -/
theorem declares_header (hs : s.Sound) (hnew : s.NewClass n ps) (hstep : s.Step (.within (Namespace.global.child n)) s₁)
    (hkind : isFinal → kind = .regular) (hsup : ∀ sup ∈ superclass, SuperFound s s₁ (kind == .interface) sup)
    (hextends : ps ≠ [] ∨ isFinal = false → ∀ sup ∈ superclass, Extendable s sup.ty) :
    Declares s₁ (s₁.withContext (s₁.context.push .global (.cls (classHeader n kind ps isFinal superclass))))
      (classHeader n kind ps isFinal superclass) := by
  have hns : s₁.frame.ns = Namespace.global.child n := hstep.frame ▸ hnew.ns
  have hroot : s₁.frame.captureRoot = none := hstep.frame ▸ hnew.root
  have hopened : s.Opened (Namespace.global.child n) := hnew.ns ▸ hs.here
  -- The name was free when it was drawn, and nothing since was permitted to take it.
  have hfree : ¬s₁.Taken n := fun ht => (hstep.taken n hnew.spent ht).elim hnew.free id
  have hfreeClass : ∀ c ∈ s₁.classes, c.name ≠ n := fun c hc hname =>
    hfree ⟨_, _, Context.mem_classes_global.mp hc, List.mem_singleton.mpr hname.symm⟩
  have hopen : ∀ {d}, s.IsOpen d → s₁.IsOpen d := fun h => h.mono hstep.toLeads
  have hupper : (Namespace.global.child n).className? ≠ none := by
    rw [Namespace.className?_classScope hnew.upper]
    nofun
  have hparams := hnew.params
  exact
    { context := rfl
      noFields := rfl
      noFuncs := rfl
      empty := by
        rw [show (classHeader n kind ps isFinal superclass).scope = Namespace.global.child n from rfl,
          hstep.inside _ hopened hupper id, hnew.empty]
        rfl
      free := hfree
      spent := spent_withContext.mpr (hstep.spent _ hnew.spent)
      making := by
        show s₁.unfinished.contains n
        rw [hstep.unfinished]
        exact hnew.making
      named := hnew.upper
      plain :=
        { provided := nofun
          params := hparams.plain
          name_ne := fun _ l heq => hnew.foreign l l.arrayCtor .array heq.symm
          letters := fun _ => hparams.letters
          supers := fun t ht => by
            obtain ⟨sup, hmem, rfl⟩ := List.mem_map.mp ht
            exact (hsup sup (Option.mem_toList.mp hmem)).plain
          objects := fun _ t ht => by
            obtain ⟨sup, hmem, rfl⟩ := List.mem_map.mp ht
            exact (hsup sup (Option.mem_toList.mp hmem)).object }
      distinct := hparams.distinct
      finalKind := hkind
      steady := hparams.steady
      types := (hstep.types _ hopened id).trans hnew.types
      header := fun hvaries sup hmem => by
        obtain ⟨hchosen, d, hd, hof⟩ := hextends
          (hvaries.imp_left fun hgeneric heq => by simp [ClassDecl.isGeneric, classHeader, heq] at hgeneric) sup
          (Option.mem_toList.mp hmem)
        exact ⟨(hnew.inMethod hs rfl).within hchosen fun _ hv => hv, d, hopen hd, hof⟩
      telescoped := hparams.telescoped
      single := by cases superclass <;> simp [classHeader]
      supers := fun sup hmem => by
        obtain ⟨d, hd, hsuits⟩ := (hsup sup (Option.mem_toList.mp hmem)).suits
          (c := classHeader n kind ps isFinal superclass) rfl
        exact ⟨d, (hopen hd).1, (hopen hd).2.1, hsuits⟩
      superArgs := .exprs fun a ha => by
        obtain ⟨sup, hmem, ha⟩ := mem_superArgs_classHeader ha
        have hfits := ((hsup sup hmem).args a ha).1
        unfold FitsHere at hfits
        rw [hns, hroot] at hfits
        exact hstep.sound.fits_newClass hfits hnew.upper hfreeClass
      superRoots := fun a ha => by
        obtain ⟨sup, hmem, ha⟩ := mem_superArgs_classHeader ha
        exact ((hsup sup hmem).args a ha).2 }

/-- **A class that was registered is empty.** -/
theorem inClass_of_registered (hs : s.Sound) (hnew : s.NewClass n ps) (hstep : s.Step (.header n) s')
    (hsup : ∀ sup ∈ superclass, SuperFound s s₁ (kind == .interface) sup)
    (hmem : classHeader n kind ps isFinal superclass ∈ s'.classes) (hh : h = classHeader n kind ps isFinal superclass) :
    s.InClass s' h ∧ (∀ f, .field f ∉ s'.decls h.scope) ∧ ∀ g, .func g ∉ s'.decls h.scope := by
  subst hh
  have hopened : s.Opened (Namespace.global.child n) := hnew.ns ▸ hs.here
  have hinside := hstep.inside _ hopened (by rw [Namespace.className?_classScope hnew.upper]; nofun) id
  rw [hnew.empty] at hinside
  have hnone : ∀ d ∈ s'.decls (Namespace.global.child n), d.isMember = false := by
    intro d hd
    by_contra hmember
    have : d ∈ (s'.decls (Namespace.global.child n)).filter Decl.isMember :=
      List.mem_filter.mpr ⟨hd, by simpa using hmember⟩
    rw [hinside] at this
    cases this
  refine ⟨
    { start := hs
      above := fun sup hmem => ?_
      ns := hstep.frame ▸ hnew.ns
      making := ?_
      exists_mem := ⟨_, hmem, rfl⟩
      since := hstep.toLeads
      untouched := fun x hx _ => ?_ }, fun f hf => ?_, fun g hg => ?_⟩
  · obtain ⟨d, ⟨hd, hfinished, -⟩, hname, -⟩ := (hsup sup (Option.mem_toList.mp hmem)).cls
    exact ⟨d, hd, hfinished, hname⟩
  · show s'.unfinished.contains n
    rw [hstep.unfinished]
    exact hnew.making
  · exact (hstep.same _ (opened_child hopened hx) (Namespace.child_ne_global rfl)
      fun heq => Namespace.ne_child (Namespace.isWithin_refl _) heq.symm).trans (hnew.inner x hx)
  · cases hnone _ hf
  · cases hnone _ hg

/-- The class is registered. -/
theorem registerClass_ensures (hs : s.Sound) (hnew : s.NewClass n ps)
    (hstep : s.Step (.within (Namespace.global.child n)) s₁) (hkind : isFinal → kind = .regular)
    (hsup : ∀ sup ∈ superclass, SuperFound s s₁ (kind == .interface) sup ∧ Extendable s sup.ty)
    (hh : h = classHeader n kind ps isFinal superclass) :
    (addDecl .global (.cls h)).Ensures (fun _ s' => s.Step (.header n) s') s₁ fun _ s' => s.InClass s' h ∧
      (∀ f, .field f ∉ s'.decls h.scope) ∧ ∀ g, .func g ∉ s'.decls h.scope := by
  have hfound := fun sup hmem => (hsup sup hmem).1
  have hdeclares := declares_header hs hnew hstep hkind hfound fun _ sup hmem => (hsup sup hmem).2
  rw [hh]
  refine (addClass_step (P := .header n) hstep.sound hdeclares fun _ => rfl).imp fun _ s' h' heq => ?_
  have hall : s.Step (.header n) s' := (hstep.relax allows_header).trans h'
  refine ⟨hall, inClass_of_registered hs hnew hall hfound ?_ rfl⟩
  rw [heq, hdeclares.classes]
  exact List.mem_append_right _ List.mem_cons_self

/-- What is known of a class that was made under the name `n`, before it counts as finished. -/
structure ClassMade (s : Session) (n : String) (ps : List TypeParam) (spec : ClassSpec) : Prop where
  complete : ∀ c ∈ s.classes, c.name = n → c.kind = .regular → abstractMembers s.context c.ownType = []
  mem : ∃ c ∈ s.classes, c.name = n ∧ c.typeParams = ps ∧ ∀ t ∈ spec.fieldType, ∃ f ∈ c.fields, f.ty = t

/-- **A class is registered and filled.** -/
theorem declareClass_ensures {spec : ClassSpec} (hs : s.Sound) (he : s.Served e 0) (hnew : s.NewClass n ps)
    (hkind : isFinal → kind = .regular) (hfield : spec.fieldType.isSome → kind ≠ .interface)
    (hspec : spec.Suits ps) :
    (declareClass e spec (Namespace.global.child n) n kind isFinal ps).Ensures (Step (.ofClass n)) s fun _ s' =>
      ClassMade s' n ps spec := by
  have hcovers : (Permit.within (Namespace.global.child n)).Covers s.frame.ns := .inr hnew.ns
  unfold declareClass
  refine (selectSuperclass_ensures hs he hcovers).seq fun superclass s₁ h₁ hsup => ?_
  refine (registerClass_ensures hs hnew h₁ hkind hsup rfl).seq fun _ s₂ h₂ hpost => ?_
  obtain ⟨hin, hnofields, hnofuncs⟩ := hpost
  generalize hh : classHeader n kind ps isFinal superclass = h at hin hnofields hnofuncs
  have hscope : h.scope = Namespace.global.child n := hh ▸ rfl
  have hsupers : h.supers = superclass.toList := hh ▸ rfl
  have hhkind : h.kind = kind := hh ▸ rfl
  have hhps : h.typeParams = ps := hh ▸ rfl
  have hname : h.name = n := hh ▸ rfl
  have h₀₂ : s.Step (.ofClass n) s₂ := h₂.relax allows_ofClass_header
  refine Ensures.weaken (R := Step (.ofClass n)) ?_ fun _ => h₀₂.trans
  have hrest : ∀ s₃, s₂.FieldStep h s₃ →
      (kind ≠ .interface → ∀ t ∈ spec.fieldType, ∃ f : FieldDecl, .field f ∈ s₃.decls h.scope ∧ f.ty = t) →
      (genMethods e h.scope h.kind isFinal spec (superclass.map (·.ty))).Ensures (Step (.ofClass n)) s₃ fun _ s' =>
        ClassMade s' n ps spec := by
    intro s₃ h₃ hfields
    have hin₃ := hin.step_noMethod h₂.sound h₃.toStep
    refine (genMethods_ensures h₃.sound ((he.step (h₀₂.trans (h₃.toStep.relax (allows_ofClass_body hscope)))).withFrame
      (Nat.le_succ _)) hin₃ (fun t ht => ?_) hspec.signature hsupers fun g hg => ?_).imp fun _ s' h' hpost => ?_
    · exact ⟨(hspec.ret t ht).1, (hspec.ret t ht).2.imp_right fun hfits => hfits h hhps⟩
    · rcases h₃.others _ hg with hold | ⟨f, heq⟩
      · exact hnofuncs g hold
      · cases heq
    · obtain ⟨hin', himpl⟩ := hpost
      have hs' := h'.sound
      obtain ⟨c, hc, hcscope, hcname, hckind, hcps, -, -⟩ := hin'.exists_class
      refine ⟨h'.relax (allows_ofClass_body hscope), ?_, c, hc, hcname.trans hname, hcps.trans hhps, fun t ht => ?_⟩
      · intro d hd hdname hregular
        obtain rfl := hs'.class_eq hd hc (hdname.trans (hcname.trans hname).symm)
        exact hin'.complete hs' (himpl (hckind ▸ hregular)) hd hcname hregular
      · obtain ⟨f, hf, hty⟩ := hfields (hfield (Option.isSome_of_mem ht)) t ht
        refine ⟨f, ?_, hty⟩
        rw [(hs'.members c hc).1]
        exact List.mem_filterMap.mpr ⟨_, hcscope ▸ h'.field_mem hf, rfl⟩
  rw [hscope, hhkind] at hrest
  extract_lets superType rest
  split
  · rename_i hnot
    have hfields : (genFields h.scope isFinal spec.fieldType superType).Ensures (FieldStep h) s₂ fun _ s' =>
        ∀ t ∈ spec.fieldType, ∃ f : FieldDecl, .field f ∈ s'.decls h.scope ∧ f.ty = t := by
      refine genFields_ensures h₂.sound hin (fun t ht => ?_) (fun t ht => ?_) hnofields
      · exact ⟨(hspec.field t ht).1, fun _ => hhps ▸ (hspec.field t ht).2⟩
      · obtain ⟨sup, hmem, rfl⟩ := Option.map_eq_some_iff.mp ht
        exact ⟨sup, hsupers ▸ Option.mem_toList.mpr hmem, rfl⟩
    rw [hscope] at hfields
    exact hfields.seq fun _ s₃ h₃ hpost => (hrest s₃ h₃ fun _ => hscope ▸ hpost).weaken fun _ =>
      (h₃.toStep.relax (allows_ofClass_body hscope)).trans
  · exact hrest s₂ (.refl h₂.sound) fun hkind => absurd hkind ‹_›

end Registration

/-! ## Type parameters -/

/-- The type parameters of a class can be bound in its scope. -/
theorem paramFits_of_classParams {ns : Namespace} (hps : ClassParams ps) (hp : p ∈ ps) : ParamFits ns p := by
  have hmem : ∀ {r q}, r ∈ ps → (Ty.param r).Occurs q → q ∈ ps := by
    intro r q hr hq
    rcases Ty.occurs_param.mp hq with rfl | ⟨b, hb, hq⟩
    · exact hr
    · exact (hps.steady r hr b hb q hq).1
  have hunmarked : ∀ {r}, r ∈ ps → ¬IsMarked r.name := fun hr => not_isMarked_of_mem_capitalLetters (hps.letters _ hr)
  exact ⟨hps.plain p hp, fun _ => ⟨hunmarked hp, fun q hq _ r hr => hunmarked (hmem (hmem hp hq) hr)⟩⟩

/-- **The type parameters of a class** are bound in its scope. -/
theorem classTypeParams_ensures {spec : ClassSpec} (hs : s.Sound) (hP : P.scopes s.frame.ns)
    (hmaking : P.making s.frame.ns) (hns : s.frame.ns = Namespace.global.child n) (hfree : ∀ c ∈ s.classes, c.name ≠ n)
    (hempty : (s.context.scope s.frame.ns).types = []) (hspec : ∀ ps ∈ spec.typeParams, ClassParams ps) :
    (classTypeParams s.frame.ns spec).Ensures (Step P) s fun ps s' =>
      s.BindsTypes s' s.frame.ns ps ∧ ClassParams ps ∧ ∀ qs ∈ spec.typeParams, ps = qs := by
  have hne : s.frame.ns ≠ .global := hns ▸ Namespace.child_ne_global rfl
  have hown : ∀ c ∈ s.classes, c.scope ≠ s.frame.ns := fun c hc heq =>
    hfree c hc (Namespace.child_injective (heq.trans hns)).2
  unfold classTypeParams
  split
  · rename_i ps hps
    have hparams := hspec ps hps
    refine (addTypes_ensures hs hs.here hP hmaking hne hown (fun p hp => paramFits_of_classParams hparams hp)
      (by rw [hempty]; exact hparams.distinct)).bind fun _ s₁ h₁ hbinds => .pure (.refl h₁.sound) ⟨hbinds, hparams, ?_⟩
    exact fun qs hqs => Option.some.inj (hps.symm.trans hqs)
  · rename_i hnone
    -- A top-level class sees no type parameter but its own, and so far it has none.
    have hsees : ∀ q, ¬s.SeesParam q := by
      rintro q ⟨m, hm, hq⟩
      rcases Namespace.mem_lineage_child_global (hns ▸ hm) with rfl | rfl
      · rw [← hns, hempty] at hq
        cases hq
      · rw [hs.globalTypes] at hq
        cases hq
    have hreaches : ∀ q, ¬s.Reaches q := fun q ⟨p, hp, _⟩ => hsees p hp
    refine (genTypeParams_ensures hs hP hmaking hne hown (fun _ => ⟨rfl, fun q hq => absurd hq (hreaches q)⟩) hempty).mono
      fun ps s' _ hps => ⟨hps.2, ?_, fun qs hqs => by rw [hnone] at hqs; cases hqs⟩
    obtain ⟨hletters, hdistinct, hplain, hoccurs, htelescoped, hsteady⟩ := hps.1
    refine ⟨hplain, fun p hp => ?_, hdistinct, fun p hp b hb q hq => ⟨?_, ?_⟩, htelescoped [] fun q hq => absurd hq (hsees q)⟩
    · obtain ⟨letter, hletter, -, hname⟩ := hletters p hp
      rw [hname]
      exact hletter
    · exact (hoccurs p hp q (Ty.occurs_param.mpr (.inr ⟨b, hb, hq⟩))).resolve_right (hreaches q)
    · exact hsteady (fun q hq => absurd hq (hsees q)) p hp b hb q hq

end Gen

/-! ## New classes -/

namespace Session

theorem BindsTypes.scope_eq {ns k : Namespace} (h : s.BindsTypes s' ns ps) (hk : k ≠ ns) :
    s'.context.scope k = s.context.scope k := by
  have htypes := h.types k
  have hdecls : (s'.context.scope k).decls = (s.context.scope k).decls := h.decls k
  rw [if_neg hk, List.append_nil] at htypes
  show Bindings.mk (s'.context.scope k).decls (s'.context.scope k).types = _
  rw [hdecls, htypes]

/-- The session is in the scope of a class that is about to be made. -/
structure ClassReady (s : Session) (n : String) : Prop where
  ns : s.frame.ns = Namespace.global.child n
  root : s.frame.captureRoot = none
  spent : s.Spent n
  free : ¬s.Taken n
  upper : startsUppercase n
  foreign : ∀ (l : Language) (d : TypeCtor), l.HasClass d → d.name ≠ n
  finished : s.isUnfinished n = false
  empty : s.context.scope (Namespace.global.child n) = .empty
  inner : ∀ x, s.context.scope ((Namespace.global.child n).child x) = .empty

theorem ClassReady.atStream {stream : Stream} (h : s.ClassReady n) (hs : s.Sound) :
    (s.atStream stream).ClassReady n :=
  ⟨h.ns, h.root, (Passes.atStream hs stream).spent n h.spent, h.free, h.upper, h.foreign, h.finished, h.empty, h.inner⟩

theorem ClassReady.free_class (h : s.ClassReady n) : ∀ c ∈ s.classes, c.name ≠ n := fun _ hc hname =>
  h.free ⟨_, _, Context.mem_classes_global.mp hc, List.mem_singleton.mpr hname.symm⟩

/-- With its type parameters the class can be registered. -/
theorem ClassReady.newClass (h : s.ClassReady n) (hps : ClassParams ps) (hl : s.Leads s') (hframe : s'.frame = s.frame)
    (hbinds : s.BindsTypes s' (Namespace.global.child n) ps) :
    NewClass { s' with unfinished := n :: s'.unfinished } n ps where
  ns := hframe ▸ h.ns
  root := hframe ▸ h.root
  spent := spent_withUnfinished.mpr (hl.spent n h.spent)
  free := fun ⟨m, d, hd, hn⟩ => h.free ⟨m, d, hbinds.decls m ▸ hd, hn⟩
  making := by simp [isUnfinished]
  upper := h.upper
  foreign := h.foreign
  params := hps
  types := by
    refine (hbinds.types _).trans ?_
    rw [h.empty, if_pos rfl]
    rfl
  empty := by
    refine (hbinds.decls _).trans ?_
    unfold decls Context.declarations
    rw [h.empty]
    rfl
  inner := fun x _ => (hbinds.scope_eq fun heq => Namespace.ne_child (Namespace.isWithin_refl _) heq.symm).trans (h.inner x)

theorem Sound.opened_global (hs : s.Sound) : s.Opened .global := fun x hx => by
  rw [List.mem_singleton.mp hx]
  exact hs.here _ (List.mem_of_mem_head? hs.rooted)

end Session

/-- What is known of a new class. -/
structure ClassSpec.Declared (spec : ClassSpec) (s : Session) (c : ClassDecl) : Prop where
  mem : c ∈ s.classes
  typeParams : ∀ ps ∈ spec.typeParams, c.typeParams = ps
  fields : ∀ t ∈ spec.fieldType, ∃ f ∈ c.fields, f.ty = t

namespace Gen

/-- **A class is made under a new name**, in a frame of its own; what follows changes nothing. -/
theorem newClass_ensures {α β : Type} {x : String → Gen α} {k : String → α → Gen β} {Q : String → α → Session → Prop}
    {Q' : β → Session → Prop} (hs : s.Sound) (hQ : ∀ n a s' f, Q n a s' → Q n a { s' with frame := f })
    (hk : ∀ n a s', s'.Sound → Q n a s' → (k n a).Ensures (fun s s' => s' = s) s' Q')
    (h : ∀ n s₀, s₀.Sound → s₀.ClassReady n → s.Leads s₀ → s₀.context = s.context → s₀.unfinished = s.unfinished →
      (∀ e j, s.Served e (j + 1) → s₀.Served e j) → (x n).Ensures (Step (.ofClass n)) s₀ (Q n)) :
    (do let n ← className
        let a ← inFrame (·.enterClass (Namespace.global.child n)) (x n)
        k n a).Ensures (Step P) s Q' := by
  refine (className_step (P := .within .global) hs).seq fun n s₁ h₁ hn => ?_
  obtain ⟨hname, hupper, hforeign⟩ := hn
  have hstep : s.Step (.ofClass n) s₁ := hname.step hs
  have hs₁ := hstep.sound
  -- A drawn name is unspent, so nothing can have been put under it.
  have hclosed : ∀ m : Namespace, n ∈ m.segments → s.context.scope m = .empty := fun m hm =>
    not_not.mp fun hne => hname.unspent (hs.opened m hne n hm)
  have hinner : (inFrame (·.enterClass (Namespace.global.child n)) (x n)).Ensures (Step (.ofClass n)) s₁ (Q n) := by
    refine .inOtherScope hs₁ ⟨rfl, opened_child hs₁.opened_global hname.spent, nofun, fun _ => rfl⟩ (allows_refl _ _)
      (fun _ hm => ?_) fun s₀ h₀ hs₀ => ?_
    · rw [h₁.frame] at hm
      refine hname.unspent (hs.here n ?_)
      rcases hm with heq | ⟨x, heq⟩ <;> rw [heq] <;> simp [Namespace.child]
    · subst h₀
      have hmem : n ∈ (Namespace.global.child n).segments := by simp [Namespace.child]
      refine (h n _ hs₀ ⟨rfl, rfl, spent_withFrame.mpr hname.spent, fun ht => ?_, hupper, hforeign, ?_, ?_, fun x => ?_⟩
        (hstep.toLeads.trans (leads_withFrame _ _)) hname.context hstep.unfinished fun e j he => ?_).mono
          fun a s' _ ha => hQ n a s' _ ha
      · exact hname.not_taken hs ((taken_of_context hname.context).mp ht)
      · refine Bool.eq_false_iff.mpr fun hmaking => hname.unspent (hs.making n ?_)
        rw [← hstep.unfinished]
        simpa [isUnfinished] using hmaking
      · exact (congrArg (Context.scope · _) hname.context).trans (hclosed _ hmem)
      · exact (congrArg (Context.scope · _) hname.context).trans (hclosed _ (List.mem_append_left _ hmem))
      · exact (he.step hstep).withFrame (by show s₁.frame.depth + (j + 1) ≤ s₁.frame.depth + 1 + j; omega)
  refine hinner.seq fun a s₂ h₂ ha => (hk n a s₂ h₂.sound ha).weaken fun s' h' => ?_
  rw [h']
  exact (hstep.trans h₂).relax (allows_of_unspent hname.unspent)

/-- What is done in the scope of a new class. -/
theorem genClassInside_ensures {spec : ClassSpec} (hs : s.Sound) (he : s.Served e 0) (hready : s.ClassReady n)
    (hps : ∀ ps ∈ spec.typeParams, ClassParams ps) (hspec : ∀ ps, (∀ qs ∈ spec.typeParams, ps = qs) → spec.Suits ps) :
    (genClassInside e spec (Namespace.global.child n) n).Ensures (Step (.ofClass n)) s fun c s' =>
      spec.Declared s' c := by
  unfold genClassInside
  refine (selectClassKind_ensures.drawStep hs).bind fun kind s₁ h₁ hdraws => ?_
  obtain ⟨⟨stream, rfl⟩, hkind⟩ := hdraws
  refine ((Ensures.onlyIf (R := OnlyDraws) (refl_of OnlyDraws _) fun _ => .coin).drawStep h₁.sound).bind
    fun isFinal s₂ h₂ hdraws => ?_
  obtain ⟨⟨stream', rfl⟩, hfinal⟩ := hdraws
  have hready₂ : ClassReady ((s.atStream stream).atStream stream') n := (hready.atStream hs).atStream h₁.sound
  have hns := hready₂.ns
  rw [← hns]
  refine (classTypeParams_ensures (P := .ofClass n) h₂.sound (.inl hns) (.inl hns) hns hready₂.free_class
    (by rw [hns, hready₂.empty]; rfl) hps).bind fun ps s₃ h₃ hpost => ?_
  rw [hns] at hpost ⊢
  obtain ⟨hbinds, hparams, hgiven⟩ := hpost
  have hs₃ := h₃.sound
  have hnew := hready₂.newClass hparams h₃.toLeads h₃.frame hbinds
  have hfree : ∀ c ∈ s₃.classes, c.name ≠ n := hnew.free_class
  have he₃ : s₃.Served e 0 := (he.step (h₁.trans h₂)).step h₃
  refine Ensures.bind (R := Step (.ofClass n)) (Q := fun _ s' => ∃ c ∈ s'.classes, c.name = n ∧ c.typeParams = ps ∧
    ∀ t ∈ spec.fieldType, ∃ f ∈ c.fields, f.ty = t) (.whileUnfinished ?_) fun _ s₄ h₄ hmade => ?_
  · refine (declareClass_ensures (hs₃.beginClass (h₃.spent n hready₂.spent) hfree) he₃ hnew
      (fun hf => beq_iff_eq.mp (hfinal hf)) hkind
      (hspec ps hgiven)).imp fun _ s' h' hmade => ⟨h'.endClass hs₃ hfree hmade.complete, hmade.mem⟩
  · obtain ⟨c, hc, hname, hcps, hfields⟩ := hmade
    refine .get ?_
    rw [← hname, h₄.sound.class?_eq hc]
    exact .pure (.refl h₄.sound) ⟨hc, fun qs hqs => hcps.trans (hgiven qs hqs), hfields⟩

/-- **A class is declared.** -/
theorem genClassDecl_ensures {spec : ClassSpec} (hs : s.Sound) (he : s.Served e 1)
    (hps : ∀ ps ∈ spec.typeParams, ClassParams ps) (hspec : ∀ ps, (∀ qs ∈ spec.typeParams, ps = qs) → spec.Suits ps)
    (hname : spec.name = none) : (genClassDecl e spec).Ensures (Step P) s fun c s' => spec.Declared s' c := by
  rw [genClassDecl_eq, specClassName, hname]
  have hclass : (className >>= fun n => inFrame (·.enterClass (Namespace.global.child n))
      (genClassInside e spec (Namespace.global.child n) n) >>= pure).Ensures (Step P) s fun c s' => spec.Declared s' c :=
    newClass_ensures hs (Q := fun _ c s' => spec.Declared s' c) (fun _ _ _ _ h => ⟨h.mem, h.typeParams, h.fields⟩)
      (fun _ _ _ _ h => .pure rfl h) fun n s₀ hs₀ hready _ _ _ he₀ =>
        genClassInside_ensures hs₀ (he₀ e 0 he) hready hps hspec
  simp only [bind_pure] at hclass
  exact hclass

end Gen

end ProgramGen

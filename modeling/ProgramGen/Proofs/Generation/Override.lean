import ProgramGen.Proofs.Generation.Declare
import ProgramGen.Proofs.Typing.Calls

/-!
# Overridden members

A member of a superclass is overridden with the signature that it has seen through the superclasses on
the way. Such a view binds letters only, and the type parameters of functions are no letters: they stay
what they are, and the signature goes on to use all of them.
-/

namespace ProgramGen

open Session

variable {s s' s₁ s₂ : Session} {t u : Ty} {e : Engine} {P : Permit} {n : String} {c d : ClassDecl}
variable {f g : FuncDecl} {m : Subst} {p q : TypeParam} {C : Context}

/-! ## Views -/

/-- The substitution binds letters only, to plain types. -/
structure Subst.IsView (m : Subst) : Prop where
  letters : ∀ n u, m.lookup n = some u → n ∈ capitalLetters
  plain : ∀ n u, m.lookup n = some u → u.Plain

namespace Subst.IsView

variable (h : m.IsView)
include h

theorem lookup_of_isMarked (hn : IsMarked n) : m.lookup n = none :=
  Option.eq_none_iff_forall_ne_some.mpr fun u hu => not_isMarked_of_mem_capitalLetters (h.letters n u hu) hn

theorem subst_plain (ht : t.Plain) : (t.subst m).Plain := ht.subst h.plain

theorem subst_requested (ht : t.Requested) : (t.subst m).Requested := (ht.subst_plain h.plain).1

/-- A marked parameter stays one of its name. -/
theorem subst_param (hp : IsMarked p.name) :
    (Ty.param p).subst m = .param (p.subst m) ∧ (p.subst m).name = p.name := by
  refine TypeParam.subst_of_not_contains ?_
  unfold Subst.contains Subst.get?
  rw [h.lookup_of_isMarked hp]
  rfl

theorem bound_subst (hp : IsMarked p.name) : (p.subst m).bound = p.bound.map (Ty.subst m) := by
  have hsubst := (h.subst_param hp).1
  obtain ⟨name, variance, bound⟩ := p
  rw [Ty.subst, h.lookup_of_isMarked hp] at hsubst
  have heq := Ty.param.inj hsubst
  rw [← heq, Ty.substBound_eq]

/-- A marked name that is used goes on to be used. -/
theorem uses (hn : IsMarked n) (ht : t.Uses n) : (t.subst m).Uses n := by
  induction ht with
  | here =>
    rw [Ty.subst, h.lookup_of_isMarked hn]
    exact .here
  | @bound q b hq hb _ ih =>
    obtain ⟨name, variance, bound⟩ := q
    cases hb
    rw [Ty.subst, h.lookup_of_isMarked hq]
    exact .bound hq rfl ih
  | wildcard _ ih =>
    rw [Ty.subst]
    exact .wildcard ih
  | @arg c args a ha _ ih =>
    rw [Ty.subst, Ty.substList_eq]
    exact .arg (List.mem_map_of_mem ha) ih

end Subst.IsView

/-- The arguments of an object's type view its class. -/
theorem Ty.Plain.isView_argMap (ht : t.Plain) (hobject : t.isObject) : t.argMap.IsView := by
  cases ht with
  | @applied c args hargs _ _ _ hletters =>
    have hbuiltin : c.builtin = false := by simpa [Ty.isObject] using hobject
    refine ⟨fun n u hu => ?_, fun n u hu => ?_⟩
    all_goals
      obtain ⟨x, hx, hn, rfl⟩ := Subst.mem_of_lookup_ofList hu
      obtain ⟨hp, ha⟩ := List.of_mem_zip hx
    · exact hn ▸ hletters hbuiltin x.1 hp
    · exact hargs x.2 ha
  | _ => exact ⟨(fun _ _ h => by cases h), fun _ _ h => by cases h⟩

/-- A member is inherited from a class through a view. -/
theorem Context.Inherits.isView {α : Type} {members : ClassDecl → List α} {name : α → String} {a : α}
    (h : C.Inherits members name n t a m) (hC : ∀ d ∈ C.programClasses, d.ctor.IsPlain) (ht : t.Plain)
    (hobject : t.isObject) : m.IsView ∧ ∃ d ∈ C.programClasses, a ∈ members d := by
  induction h with
  | here hd _ ha => exact ⟨ht.isView_argMap hobject, _, hd, ha⟩
  | @above t d sup a m hd _ _ hsup _ ih =>
    have hmem : sup.ty ∈ d.supertypes := List.mem_map_of_mem hsup
    exact ih (((hC d hd).supers _ hmem).subst (ht.isView_argMap hobject).plain)
      (Ty.Plain.isObject_subst ((hC d hd).objects rfl _ hmem))

/-! ## Signatures seen through a view -/

/-- The signature of a function as a view shows it. -/
def FuncDecl.through (f : FuncDecl) (m : Subst) : Signature where
  typeParams := f.typeParams.map (TypeParam.subst m)
  params := f.params.map fun p => ⟨p.name, p.ty.subst m, none⟩
  ret := f.ret.subst m

namespace FuncDecl

variable (hm : m.IsView) (hf : f.IsMethod)

theorem paramTypes_through : (f.through m).params.map (·.ty) = f.paramTypes.map (Ty.subst m) := by
  simp [through, paramTypes]

theorem paramNames_through : (f.through m).params.map (·.name) = f.params.map (·.name) := by
  simp [through]

include hm hf

theorem typeParamNames_through : (f.through m).typeParams.map (·.name) = f.typeParams.map (·.name) := by
  rw [through, List.map_map]
  exact List.map_congr_left fun p hp => (hm.subst_param (hf.marked p hp)).2

/-- The view uses the type parameters of the function. -/
theorem uses_through (hp : p ∈ (f.through m).typeParams) :
    ∃ t ∈ (f.through m).ret :: (f.through m).params.map (·.ty), t.Uses p.name := by
  obtain ⟨q, hq, rfl⟩ := List.mem_map.mp hp
  rw [(hm.subst_param (hf.marked q hq)).2, paramTypes_through]
  obtain ⟨t, ht, huses⟩ := hf.used q hq
  exact ⟨t.subst m, List.mem_map_of_mem (f := Ty.subst m) ht, hm.uses (hf.marked q hq) huses⟩

theorem usesAll_through : (f.through m).UsesAll := fun p hp => by
  obtain ⟨t, ht, huses⟩ := uses_through hm hf hp
  exact ⟨t, ht, huses.occurs⟩

/-- A function with the signature that a view shows can be overridden in its turn. -/
theorem IsMethod.through (hts : g.typeParams = (f.through m).typeParams)
    (hps : g.params = (f.through m).params) (hret : g.ret = (f.through m).ret) : g.IsMethod where
  marked p hp := by
    rw [hts] at hp
    obtain ⟨q, hq, rfl⟩ := List.mem_map.mp hp
    exact (hm.subst_param (hf.marked q hq)).2 ▸ hf.marked q hq
  distinct := by
    rw [hts, typeParamNames_through hm hf]
    exact hf.distinct
  used p hp := by
    rw [hret, paramTypes, hps]
    exact uses_through hm hf (hts ▸ hp)
  params := by
    rw [hps, paramNames_through]
    exact hf.params

end FuncDecl

/-! ## What is inherited -/

/-- A member of a settled type is one of a settled class. -/
theorem Context.Inherits.mem_settled {α : Type} {members : ClassDecl → List α} {name : α → String} {a : α}
    {F : ClassDecl → Prop} (h : C.Inherits members name n t a m) (hF : C.Settled F) (hC : C.DistinctClasses)
    (ht : ∃ d, F d ∧ d.name = t.name) : ∃ d, F d ∧ a ∈ members d := by
  induction h with
  | here hd hname ha =>
    obtain ⟨d', hF', hname'⟩ := ht
    obtain rfl := hC.eq_of_name hd (hF.mem d' hF') (hname.trans hname'.symm)
    exact ⟨_, hF', ha⟩
  | above hd hname _ hsup _ ih =>
    obtain ⟨d', hF', hname'⟩ := ht
    obtain rfl := hC.eq_of_name hd (hF.mem d' hF') (hname.trans hname'.symm)
    obtain ⟨hobject, d'', hF'', hname''⟩ := hF.supers _ hF' _ hsup
    exact ih ⟨d'', hF'', hname''.trans (Ty.name_subst_of_isObject hobject).symm⟩

namespace Session

section Inherited

variable {α : Type} {members : ClassDecl → List α} {name : α → String} {a : α}

/-- The class `c` inherits a member of a finished class, as `m` views it. -/
structure Inherited (s : Session) (members : ClassDecl → List α) (name : α → String) (c : ClassDecl) (a : α)
    (m : Subst) : Prop where
  view : m.IsView
  mem : ∃ d ∈ s.classes, s.isUnfinished d.name = false ∧ a ∈ members d
  inherits : ∃ sup ∈ c.supers, s.context.Inherits members name (name a) sup.ty a m
  varies : c.isGeneric ∨ c.isFinal = false →
    ∃ d, d.Respects ∧ a ∈ members d ∧ m.Views d.typeParams c.typeParams

/-- The classes that can be extended respect their type parameters. -/
theorem Sound.varies (hs : s.Sound) : s.context.Varies s.IsOpen where
  distinct d hd := (hs.classes d hd.1).distinct
  respects d hd := ((hs.classes d hd.1).varies (.inr hd.2.2)).1
  supers d hd sup hsup :=
    ⟨(hs.classes d hd.1).plain.supers _ (List.mem_map_of_mem hsup),
      ((hs.classes d hd.1).varies (.inr hd.2.2)).2 sup hsup⟩
  mem _ hd := hd.1

/-- **What stands above a class is inherited.** -/
theorem Sound.inherited (hs : s.Sound) (hc : c ∈ s.classes) {sup : SuperDecl} (hsup : sup ∈ c.supers)
    (h : s.context.Inherits members name (name a) sup.ty a m) : s.Inherited members name c a m := by
  have hok := hs.classes c hc
  have hmem : sup.ty ∈ c.supertypes := List.mem_map_of_mem hsup
  obtain ⟨d, hd, hfinished, hsuits⟩ := hok.supers sup hsup
  obtain ⟨d', ⟨hd', hfinished'⟩, ha⟩ := h.mem_settled hs.settled hs.toRegistered.distinctClasses
    ⟨d, ⟨hd, hfinished⟩, hsuits.name⟩
  refine ⟨(h.isView (fun d hd => (hs.classes d hd).plain) (hok.plain.supers _ hmem)
    (hok.plain.objects rfl _ hmem)).1, ⟨d', hd', hfinished', ha⟩, ⟨sup, hsup, h⟩, fun hvaries => ?_⟩
  obtain ⟨hrespects, hopen⟩ := hok.varies hvaries
  obtain ⟨d₀, hd₀, hof⟩ := hopen sup hsup
  obtain ⟨d₁, hd₁, ha₁, hviews⟩ := h.views hs.varies hs.toRegistered.distinctClasses hd₀ hof
    (hrespects.header sup hsup)
  exact ⟨d₁, ((hs.classes d₁ hd₁.1).varies (.inr hd₁.2.2)).1, ha₁, hviews⟩

end Inherited

/-- The class inherits the function. -/
abbrev InheritsFunc (s : Session) (c : ClassDecl) (f : FuncDecl) (m : Subst) : Prop :=
  s.Inherited ClassDecl.funcs FuncDecl.name c f m

/-- The class inherits the field. -/
abbrev InheritsField (s : Session) (c : ClassDecl) (f : FieldDecl) (m : Subst) : Prop :=
  s.Inherited ClassDecl.fields FieldDecl.name c f m

/-- The types of a function that is registered are plain. -/
theorem Sound.typesPlain_func (hs : s.Sound) (hc : c ∈ s.classes) (hf : f ∈ c.funcs) :
    (Decl.func f).TypesPlain :=
  hs.types _ _ (hs.func_mem hc hf)

namespace Inherited

variable (h : s.InheritsFunc c f m) (hs : s.Sound)
include h hs

theorem isMethod : f.IsMethod := by
  obtain ⟨d, hd, -, hf⟩ := h.mem
  exact (hs.classes d hd).methods f hf

theorem typesPlain : (Decl.func f).TypesPlain := by
  obtain ⟨d, hd, -, hf⟩ := h.mem
  exact hs.typesPlain_func hd hf

/-- **What a view shows of a function is the signature of one that overrides it.** -/
theorem methodSig (hts : g.typeParams = (f.through m).typeParams) (hps : g.params = (f.through m).params)
    (hret : g.ret = (f.through m).ret) (hname : g.name = f.name) (hfinal : f.isFinal = false) : s.MethodSig c g := by
  have hmethod := h.isMethod hs
  have hplain := h.typesPlain hs
  refine ⟨FuncDecl.IsMethod.through h.view hmethod hts hps hret, fun _ => ⟨f, m, hname ▸ h.inherits, hfinal,
    by rw [hts, FuncDecl.through, List.length_map], ?_, hret⟩, fun hc => ?_⟩
  · rw [FuncDecl.paramTypes, hps, FuncDecl.paramTypes_through]
  · obtain ⟨d, hd, hfd, hviews⟩ := h.varies hc
    have hrespects := hd.funcs f hfd
    refine ⟨fun p hp => ?_, ?_, fun p hp b hb => ?_⟩
    · rw [hps] at hp
      obtain ⟨q, hq, rfl⟩ := List.mem_map.mp hp
      exact ((hrespects.params q hq).subst (hplain.1 q hq) hviews).mono fun v hv => hv ▸ fun h => by cases h
    · rw [hret]
      rcases hplain.2.1 with hret | ⟨l, hret⟩
      · exact (hrespects.ret.subst hret hviews).mono fun v hv => hv ▸ fun h => by cases h
      · refine .of_not_occurs fun q hq => ?_
        rw [FuncDecl.through, hret, Ty.subst_of_isGround l.isGround_voidType] at hq
        exact Ty.not_occurs_of_isGround l.isGround_voidType hq
    · rw [hts] at hp
      obtain ⟨q, hq, rfl⟩ := List.mem_map.mp hp
      rw [h.view.bound_subst (hmethod.marked q hq)] at hb
      obtain ⟨b, hbound, rfl⟩ := Option.map_eq_some_iff.mp hb
      have hbplain : b.Plain := Ty.Plain.closed.bound (hplain.2.2 q hq) hbound
      exact (hrespects.bounds q hq b hbound).subst hbplain hviews

end Inherited

end Session

namespace Gen

/-! ## Overriding a function -/

/-- No name is changed where none clashes. -/
theorem renameClashing_eq {visible taken : List String} {view : Subst} {ps : List TypeParam}
    (h : ∀ p ∈ ps, p.name ∉ visible) : renameClashing m visible ps taken view = pure view := by
  induction ps with
  | nil => rfl
  | cons p ps ih =>
    obtain ⟨hp, hps⟩ := List.forall_mem_cons.mp h
    rw [renameClashing, if_neg (by simpa using hp)]
    exact ih hps

/-- In a class only letters are visible, and no function has one for a type parameter. -/
theorem not_mem_visible (hs : s.Sound) (hc : c ∈ s.classes) (hp : IsMarked p.name) :
    p.name ∉ (s.context.types c.scope true).map (·.name) := by
  intro hmem
  obtain ⟨q, hq, hname⟩ := List.mem_map.mp hmem
  obtain ⟨ns, hns, hq⟩ := Context.mem_types hq
  have hletter := (hs.classes c hc).plain.letters rfl q (hs.mem_typeParams hc hns hq)
  rw [hname] at hletter
  exact not_isMarked_of_mem_capitalLetters hletter hp

/-- What an overriding function is asked for. -/
def overrideSpec (ns : Namespace) (m : Subst) (classIsFinal : Bool) (f : FuncDecl) : FuncSpec :=
  { ret := some (f.through m).ret
    classIsFinal := classIsFinal
    name := some f.name
    params := some (f.through m).params
    typeParams := some (f.through m).typeParams
    ns := some ns
    isOverride := true }

/-- The permit to override functions of the class with names that `N` holds of. -/
structure PermitsMethod (P : Permit) (c : ClassDecl) (n : String) : Prop where
  scopes : P.scopes c.scope
  making : P.making c.scope
  inner : P.scopes (c.scope.child n)
  innerMaking : P.making (c.scope.child n)

/-- **An inherited function is overridden.** -/
theorem overrideFunc_ensures (classIsFinal : Bool) (hs : s.Sound) (he : s.Served e 1) (hc : c ∈ s.classes)
    (hmaking : s.isUnfinished c.name) (hns : s.frame.ns = c.scope) (h : s.InheritsFunc c f m)
    (hfinal : f.isFinal = false) (hP : PermitsMethod P c f.name) (hfree : ∀ g, .func g ∈ s.decls c.scope → g.name ≠ f.name)
    (hempty : s.context.scope (c.scope.child f.name) = .empty) :
    (overrideFunc e c.scope m classIsFinal f).Ensures (Step P) s fun g s' =>
      s.FuncDeclared s' (overrideSpec c.scope m classIsFinal f) c.scope g := by
  have hmethod := h.isMethod hs
  have hplain := h.typesPlain hs
  obtain ⟨d, hd, -, hf⟩ := h.mem
  have hmem : .func f ∈ s.decls d.scope := hs.func_mem hd hf
  have hclass : c.scope.className? ≠ none := by rw [hs.className?_scope hc]; nofun
  unfold overrideFunc
  refine .get ?_
  extract_lets visible taken
  rw [renameClashing_eq fun p hp => not_mem_visible hs hc (hmethod.marked p hp), pure_bind]
  show (genFuncDecl e (overrideSpec c.scope m classIsFinal f)).Ensures _ _ _
  refine genFuncDecl_ensures hs he
    { ns := rfl
      rooted := hns ▸ hs.rooted
      opened := hns ▸ hs.here
      place := .cls hc hmaking hP.scopes hP.making (.given rfl rfl rfl (FuncDecl.usesAll_through h.view hmethod)
        fun g hname hts hps hret _ => h.methodSig hs hts hps hret (hname _ rfl) hfinal) fun _ => ⟨rfl, rfl⟩
      named := .given rfl (hs.spent_name hmem) (.override hclass hmem rfl hfree) (fun hglobal => ?_) hempty hP.inner
        hP.innerMaking (hns ▸ Namespace.ne_child (Namespace.isWithin_refl _)) fun ps hps => ?_
      placed := fun _ hlocal => absurd hlocal.className?_eq hclass
      ret := fun t ht => ?_
      typeParams := fun ps hps => ?_
      whole := nofun }
  · exact absurd (hglobal ▸ Namespace.className?_global) hclass
  · cases hps
    refine ⟨fun p hp => ?_, by rw [FuncDecl.paramNames_through]; exact hmethod.params⟩
    obtain ⟨q, hq, rfl⟩ := List.mem_map.mp hp
    have hnames : q.name ∈ (Decl.func f).names := List.mem_cons_of_mem _ (List.mem_map_of_mem hq)
    refine ⟨⟨h.view.subst_plain (hplain.1 q hq), hs.spent hmem hnames, fun heq => ?_, .inr ⟨_, f, hmem, q, hq, rfl⟩,
      nofun⟩, rfl⟩
    obtain ⟨r, hr⟩ := hs.isParamName hmem hq _ _ hmem heq.symm
    cases hr
  · cases ht
    exact h.view.subst_requested hplain.2.1
  · cases hps
    refine ⟨fun p hp => ?_, by rw [FuncDecl.typeParamNames_through h.view hmethod]; exact hmethod.distinct⟩
    obtain ⟨q, hq, rfl⟩ := List.mem_map.mp hp
    rw [← (h.view.subst_param (hmethod.marked q hq)).1]
    exact h.view.subst_plain (hplain.2.2 q hq)

end Gen

end ProgramGen

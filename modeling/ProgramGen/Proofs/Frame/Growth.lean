import ProgramGen.Proofs.Run.Context
import ProgramGen.Proofs.Scope.Members
import ProgramGen.Proofs.Scope.Namespace

/-!
# Classes grow

A class that is registered keeps its header, and it loses none of its members: fields stay, and what a
name stands for among its functions stays but for the body, which is put in when it is complete. That
holds as long as the functions of the class are all bound in its scope, for then none that comes later
has the name of one that is there.
-/

namespace ProgramGen

variable {c c' c'' : Context} {d d' d'' : ClassDecl} {n : String} {ns ns' : Namespace} {x : Decl}
variable {f : FuncDecl} {k : DeclKind} {p : TypeParam}

/-! ## Classes -/

/-- What a name stands for among the functions of a class: the first of that name. -/
def ClassDecl.func? (d : ClassDecl) (n : String) : Option FuncDecl := d.funcs.find? (·.name == n)

/-- The class has the field, or what stands for the name of the function is the function, bodies
apart. -/
def ClassDecl.Shows (d : ClassDecl) : Decl → Prop
  | .field f => f ∈ d.fields
  | .func f => ∃ g, d.func? f.name = some g ∧ (Decl.func g).outline = (Decl.func f).outline
  | _ => False

/-- The class has the members that are asked for by their type. -/
structure ClassDecl.Answers (d : ClassDecl) (field method : Option Ty) : Prop where
  field : ∀ t ∈ field, ∃ f, f.ty = t ∧ d.Shows (.field f)
  method : ∀ t ∈ method, ∃ f, f.ret = t ∧ d.Shows (.func f)

theorem ClassDecl.answers_none (d : ClassDecl) : d.Answers none none := ⟨nofun, nofun⟩

/-- A class of the same header that has all fields, and under all names the same functions, bodies
apart. -/
structure ClassDecl.GrowsTo (d d' : ClassDecl) : Prop where
  header : d'.header = d.header
  fields : d.fields ⊆ d'.fields
  funcs : ∀ n f, d.func? n = some f →
    ∃ f', d'.func? n = some f' ∧ (Decl.func f').outline = (Decl.func f).outline

namespace ClassDecl

theorem func?_eq_none (h : ∀ f ∈ d.funcs, f.name ≠ n) : d.func? n = none :=
  List.find?_eq_none.mpr fun f hf => by simpa using h f hf

namespace GrowsTo

theorem refl (d : ClassDecl) : d.GrowsTo d := ⟨rfl, fun _ h => h, fun _ f h => ⟨f, h, rfl⟩⟩

theorem trans (h : d.GrowsTo d') (h' : d'.GrowsTo d'') : d.GrowsTo d'' where
  header := h'.header.trans h.header
  fields := List.Subset.trans h.fields h'.fields
  funcs n f hf := by
    obtain ⟨f', hf', houtline⟩ := h.funcs n f hf
    obtain ⟨f'', hf'', houtline'⟩ := h'.funcs n f' hf'
    exact ⟨f'', hf'', houtline'.trans houtline⟩

theorem name (h : d.GrowsTo d') : d'.name = d.name := congrArg (·.name) h.header

theorem typeParams (h : d.GrowsTo d') : d'.typeParams = d.typeParams := congrArg (·.typeParams) h.header

theorem scope (h : d.GrowsTo d') : d'.scope = d.scope := congrArg Namespace.global.child h.name

/-- One more member. -/
theorem withMember (d : ClassDecl) (x : Decl) : d.GrowsTo (d.withMember x) := by
  cases x with
  | field f => exact ⟨rfl, List.subset_append_left _ _, fun n g h => ⟨g, h, rfl⟩⟩
  | func f =>
    refine ⟨rfl, fun _ h => h, fun n g h => ⟨g, ?_, rfl⟩⟩
    rw [func?] at h
    rw [func?, ClassDecl.withMember, List.find?_append, h]
    rfl
  | _ => exact refl d

end GrowsTo

/-- What is shown is shown by a class that has grown. -/
theorem Shows.mono (h : d.Shows x) (hgrows : d.GrowsTo d') : d'.Shows x := by
  cases x with
  | field f => exact hgrows.fields h
  | func f =>
    obtain ⟨g, hg, houtline⟩ := h
    obtain ⟨g', hg', houtline'⟩ := hgrows.funcs _ g hg
    exact ⟨g', hg', houtline'.trans houtline⟩
  | _ => exact h.elim

theorem Answers.mono {field method : Option Ty} (h : d.Answers field method) (hgrows : d.GrowsTo d') :
    d'.Answers field method where
  field t ht := (h.field t ht).imp fun _ hf => ⟨hf.1, hf.2.mono hgrows⟩
  method t ht := (h.method t ht).imp fun _ hf => ⟨hf.1, hf.2.mono hgrows⟩

theorem Shows.of_outline {f f' : FuncDecl} (h : d.Shows (.func f))
    (houtline : (Decl.func f').outline = (Decl.func f).outline) :
    d.Shows (.func f') := by
  obtain ⟨g, hg, hgf⟩ := h
  have hname : f'.name = f.name := congrArg Decl.name houtline
  exact ⟨g, hname ▸ hg, hgf.trans houtline.symm⟩

/-- A member that is new is shown; of a function the name has to be new. -/
theorem shows_withMember (hmember : x.isMember) (hnew : ∀ f, x = .func f → d.func? f.name = none) :
    (d.withMember x).Shows x := by
  cases x with
  | field f => exact List.mem_append_right _ List.mem_cons_self
  | func f =>
    refine ⟨f, ?_, rfl⟩
    have hnone : d.funcs.find? (·.name == f.name) = none := hnew f rfl
    rw [func?, withMember, List.find?_append, hnone]
    simp
  | _ => cases hmember

theorem func?_withFunc : (d.withFunc f).func? n =
    if n = f.name then (d.func? f.name).map fun _ => f else d.func? n :=
  Context.find?_modifyFirst fun _ _ => rfl

/-- A function is completed. -/
theorem GrowsTo.withFunc (h : d.Shows (.func f)) : d.GrowsTo (d.withFunc f) := by
  obtain ⟨g, hg, houtline⟩ := h
  refine ⟨rfl, fun _ h => h, fun n g' hg' => ?_⟩
  rw [func?_withFunc]
  split
  · subst n
    exact ⟨f, by rw [hg]; rfl, Option.some.inj (hg.symm.trans hg') ▸ houtline.symm⟩
  · exact ⟨g', hg', rfl⟩

end ClassDecl

/-! ## Symbol tables -/

namespace Context

/-- The class is found by its name, and its functions are bound in its scope. -/
structure Tracks (c : Context) (d : ClassDecl) : Prop where
  found : c.class? .global d.name false = some d
  bound : ∀ f ∈ d.funcs, (c.scope d.scope).binds .func f.name

/-- All classes that are tracked grow, and are tracked. -/
def GrowsTo (c c' : Context) : Prop := ∀ d, c.Tracks d → ∃ d', c'.Tracks d' ∧ d.GrowsTo d'

theorem binds_iff : (c.scope ns).binds k n ↔ ∃ x ∈ c.declarations ns, x.kind = k ∧ x.name = n := by
  simp [Bindings.binds, Bindings.isNamed, declarations]

/-- A change of one declaration that keeps names and kinds unbinds nothing. -/
theorem binds_modify {g : Decl → Decl} {k' : DeclKind} {n' : String} (hkind : ∀ x, (g x).kind = x.kind)
    (hname : ∀ x, x.kind = k → x.name = n → (g x).name = n) (h : (c.scope ns').binds k' n') :
    ((c.modify ns k n g).scope ns').binds k' n' := by
  have hnamed : ∀ xs : List Decl, (∃ x ∈ xs, x.kind = k' ∧ x.name = n') →
      ∃ x ∈ modifyFirst (Bindings.isNamed k n) g xs, x.kind = k' ∧ x.name = n' := by
    intro xs
    induction xs with
    | nil => exact id
    | cons y ys ih =>
      rintro ⟨x, hx, hx'⟩
      rw [modifyFirst]
      split
      · rename_i hy
        simp only [Bindings.isNamed, Bool.and_eq_true, beq_iff_eq] at hy
        rcases List.mem_cons.mp hx with rfl | hx
        · refine ⟨g x, List.mem_cons_self, (hkind x).trans hx'.1, ?_⟩
          rw [hname x hy.1 hy.2, ← hy.2, hx'.2]
        · exact ⟨x, List.mem_cons_of_mem _ hx, hx'⟩
      · rcases List.mem_cons.mp hx with rfl | hx
        · exact ⟨x, List.mem_cons_self, hx'⟩
        · obtain ⟨z, hz, hz'⟩ := ih ⟨x, hx, hx'⟩
          exact ⟨z, List.mem_cons_of_mem _ hz, hz'⟩
  rw [binds_iff] at h ⊢
  rw [declarations_modify]
  split
  · subst ns'
    exact hnamed _ h
  · exact h

theorem binds_modifyClass {g : ClassDecl → ClassDecl} {k' : DeclKind} {n' : String} (hname : ∀ d, (g d).name = d.name)
    (h : (c.scope ns').binds k' n') : ((c.modifyClass ns n g).scope ns').binds k' n' :=
  binds_modify (fun x => by cases x <;> rfl)
    (fun x _ hx => by cases x <;> first | exact hx | exact (hname _).trans hx) h

theorem binds_push {k' : DeclKind} {n' : String} :
    ((c.push ns x).scope ns').binds k' n' ↔ (c.scope ns').binds k' n' ∨ ns = ns' ∧ x.kind = k' ∧ x.name = n' := by
  rw [binds_iff, binds_iff]
  simp only [mem_declarations_push]
  grind

namespace GrowsTo

theorem refl (c : Context) : c.GrowsTo c := fun d hd => ⟨d, hd, .refl d⟩

theorem trans (h : c.GrowsTo c') (h' : c'.GrowsTo c'') : c.GrowsTo c'' := fun d hd => by
  obtain ⟨d', hd', hgrows⟩ := h d hd
  obtain ⟨d'', hd'', hgrows'⟩ := h' d' hd'
  exact ⟨d'', hd'', hgrows.trans hgrows'⟩

/-- Where classes are found as before and no function is unbound, nothing happens to classes. -/
theorem of_found (hfound : ∀ d n, c.class? .global n false = some d → c'.class? .global n false = some d)
    (hbinds : ∀ m n, (c.scope m).binds .func n → (c'.scope m).binds .func n) : c.GrowsTo c' :=
  fun d hd => ⟨d, ⟨hfound d _ hd.found, fun f hf => hbinds _ _ (hd.bound f hf)⟩, .refl d⟩

theorem of_classes (hclasses : c'.classes .global false = c.classes .global false)
    (hbinds : ∀ m n, (c.scope m).binds .func n → (c'.scope m).binds .func n) : c.GrowsTo c' :=
  of_found (fun d n h => by rwa [class?, hclasses]) hbinds

/-- The same declarations. -/
theorem of_declarations (h : ∀ m, c'.declarations m = c.declarations m) : c.GrowsTo c' := by
  refine of_classes (by rw [classes_global, classes_global, h]) fun m n hn => ?_
  rw [binds_iff] at hn ⊢
  rwa [h]

/-- Declarations come after those that are there. -/
theorem push (c : Context) (ns : Namespace) (x : Decl) : c.GrowsTo (c.push ns x) := by
  refine of_found (fun d n h => ?_) fun m n hn => ?_
  · rw [class?, classes_global] at h ⊢
    rw [declarations_push, List.filterMap_append, List.find?_append, h]
    rfl
  · exact binds_push.mpr (.inl hn)

theorem add (h : c.add ns x = .ok c') : c.GrowsTo c' := (add_eq_ok h).2 ▸ .push c ns x

theorem addVar (h : c.addVar ns x = .ok c') : c.GrowsTo c' := .add (addVar_eq_ok h).2

theorem removeVar (c : Context) (ns : Namespace) (n : String) : c.GrowsTo (c.removeVar ns n) := by
  have hdecls : ∀ m, (c.removeVar ns n).declarations m =
      if ns = m then (c.declarations m).eraseP (Bindings.isNamed .var n) else c.declarations m := by
    intro m
    rw [declarations, Context.removeVar, scope_set]
    split
    · subst ns
      rfl
    · rfl
  refine of_classes ?_ fun m f hf => ?_
  · rw [classes_global, classes_global, hdecls]
    split
    · exact filterMap_asClass?_eraseP _
    · rfl
  · rw [binds_iff] at hf ⊢
    obtain ⟨y, hy, hkind, hname⟩ := hf
    refine ⟨y, ?_, hkind, hname⟩
    rw [hdecls]
    split
    · exact (List.mem_eraseP_of_neg (by simp [Bindings.isNamed, hkind])).mpr hy
    · exact hy

/-- A change of one declaration that keeps classes. -/
theorem modify {g : Decl → Decl} (hkind : ∀ x, (g x).kind = x.kind)
    (hname : ∀ x, x.kind = k → x.name = n → (g x).name = n) (hclass : ∀ x, asClass? (g x) = asClass? x) :
    c.GrowsTo (c.modify ns k n g) := by
  refine of_classes ?_ fun m f => binds_modify hkind hname
  have hkeep : ∀ xs : List Decl, xs.filterMap asClass? = (xs.map asClass?).filterMap id := fun xs => by
    rw [List.filterMap_map]
    rfl
  rw [classes_global, classes_global, declarations_modify]
  split
  · rw [hkeep, map_modifyFirst fun x _ _ => hclass x, ← hkeep, ‹Namespace.global = ns›]
  · rfl

end GrowsTo

/-- A class that is new is tracked, as it has no functions. -/
theorem tracks_push (hfree : (c.scope .global).binds .cls d.name = false) (hfuncs : d.funcs = []) :
    (c.push .global (.cls d)).Tracks d where
  found := by
    have hnone : (c.classes .global false).find? (·.name == d.name) = none := by
      refine List.find?_eq_none.mpr fun d' hd' hname => Bool.false_ne_true (hfree.symm.trans ?_)
      exact binds_iff.mpr ⟨.cls d', mem_classes_global.mp hd', rfl, beq_iff_eq.mp hname⟩
    rw [class?, classes_push_global, List.find?_append, hnone]
    simp
  bound := by simp [hfuncs]

/-! ## A change of one class -/

section ChangeOne

variable {g : ClassDecl → ClassDecl}
variable (hclasses : c'.classes .global false = modifyFirst (·.name == n) g (c.classes .global false))
variable (hname : ∀ d, (g d).name = d.name)
include hclasses hname

theorem Tracks.changed (hd : c.Tracks d) (hn : d.name = n)
    (hbound : ∀ f ∈ (g d).funcs, (c'.scope d.scope).binds .func f.name) : c'.Tracks (g d) where
  found := by
    rw [hname, class?, hclasses, find?_modifyFirst fun x hx => (hname x).trans hx, if_pos hn, ← hn]
    exact congrArg (Option.map g) hd.found
  bound := by
    rw [show (g d).scope = d.scope from congrArg Namespace.global.child (hname d)]
    exact hbound

theorem Tracks.unchanged (hd : c.Tracks d) (hn : d.name ≠ n)
    (hbinds : ∀ m f, (c.scope m).binds .func f → (c'.scope m).binds .func f) : c'.Tracks d where
  found := by
    rw [class?, hclasses, find?_modifyFirst fun x hx => (hname x).trans hx, if_neg hn]
    exact hd.found
  bound f hf := hbinds _ _ (hd.bound f hf)

end ChangeOne

theorem Tracks.eq (h : c.Tracks d) (h' : c.Tracks d') (hname : d.name = d'.name) : d = d' :=
  Option.some.inj (h.found.symm.trans (hname ▸ h'.found))

/-! ## Members -/

theorem name_withMember (x : Decl) (d : ClassDecl) : (d.withMember x).name = d.name := by
  cases x <;> rfl

/-- Where a class has got a member, it is tracked as long as the member is bound. -/
theorem Tracks.withMember (hd : c.Tracks d)
    (hclasses : c'.classes .global false = modifyFirst (·.name == d.name) (·.withMember x) (c.classes .global false))
    (hbinds : ∀ m f, (c.scope m).binds .func f → (c'.scope m).binds .func f)
    (hbound : ∀ f, x = .func f → (c'.scope d.scope).binds .func f.name) : c'.Tracks (d.withMember x) := by
  refine hd.changed hclasses (name_withMember x) rfl fun f hf => ?_
  have hfuncs : f ∈ d.funcs ∨ x = .func f := by
    cases x with
    | func f' => exact (List.mem_append.mp hf).imp_right fun h => by rw [List.mem_singleton.mp h]
    | _ => exact .inl hf
  exact hfuncs.elim (fun hf => hbinds _ _ (hd.bound f hf)) (hbound f)

/-- A class gets a member, which is bound in its scope. -/
theorem GrowsTo.withMember
    (hclasses : c'.classes .global false = modifyFirst (·.name == n) (·.withMember x) (c.classes .global false))
    (hbinds : ∀ m f, (c.scope m).binds .func f → (c'.scope m).binds .func f)
    (hbound : ∀ f, x = .func f → (c'.scope (Namespace.global.child n)).binds .func f.name) : c.GrowsTo c' := by
  intro d hd
  by_cases hn : d.name = n
  · subst hn
    exact ⟨_, hd.withMember hclasses hbinds hbound, .withMember d x⟩
  · exact ⟨d, hd.unchanged hclasses (name_withMember x) hn hbinds, .refl d⟩

theorem classes_push_child : (c.push (Namespace.global.child n) x).classes .global false = c.classes .global false := by
  have hne : Namespace.global ≠ Namespace.global.child n := (Namespace.child_ne_global rfl).symm
  rw [classes_global, classes_global, declarations_push, if_neg hne, List.append_nil]

/-- A member is attached: its class gets it, and the scope of the class binds it. The one may be done
before the other is refused, where a member of its kind and name is bound. -/
theorem GrowsTo.attach
    (hclasses : c'.classes .global false = (c.modifyClass .global n (·.withMember x)).classes .global false)
    (hbinds : ∀ m f, ((c.modifyClass .global n (·.withMember x)).scope m).binds .func f → (c'.scope m).binds .func f)
    (hbound : (c'.scope (Namespace.global.child n)).binds x.kind x.name) : c.GrowsTo c' :=
  .withMember (hclasses.trans classes_modifyClass)
    (fun m f h => hbinds m f (binds_modifyClass (name_withMember x) h)) fun f hf => by subst hf; exact hbound

/-- **A class shows the member that was attached to it.** -/
theorem Tracks.attach (hd : c.Tracks d) (hx : x.isMember)
    (hfree : ((c.modifyClass .global d.name (·.withMember x)).scope d.scope).binds x.kind x.name = false) :
    ((c.modifyClass .global d.name (·.withMember x)).push d.scope x).Tracks (d.withMember x) ∧
      (d.withMember x).Shows x := by
  refine ⟨hd.withMember ?_ (fun m f h => ?_) fun f hf => ?_, ClassDecl.shows_withMember hx fun f hf => ?_⟩
  · exact classes_push_child.trans classes_modifyClass
  · exact binds_push.mpr (.inl (binds_modifyClass (name_withMember x) h))
  · subst hf
    exact binds_push.mpr (.inr ⟨rfl, rfl, rfl⟩)
  · subst hf
    refine ClassDecl.func?_eq_none fun g hg hname => ?_
    have hbound : ((c.modifyClass .global d.name (·.withMember (.func f))).scope d.scope).binds .func g.name :=
      binds_modifyClass (name_withMember (.func f)) (hd.bound g hg)
    rw [hname] at hbound
    exact Bool.false_ne_true (hfree.symm.trans hbound)

/-- A function is completed in its class. -/
theorem Tracks.withFunc (hd : c.Tracks d)
    (hclasses : c'.classes .global false = modifyFirst (·.name == n) (·.withFunc f) (c.classes .global false))
    (hbinds : ∀ m f, (c.scope m).binds .func f → (c'.scope m).binds .func f)
    (hf : d.name = n → d.Shows (.func f)) : ∃ d', c'.Tracks d' ∧ d.GrowsTo d' := by
  by_cases hn : d.name = n
  · refine ⟨d.withFunc f, hd.changed hclasses (fun _ => rfl) hn fun g hg => ?_, .withFunc (hf hn)⟩
    rcases mem_modifyFirst hg with hg | ⟨g', hg', hname, rfl⟩
    · exact hbinds _ _ (hd.bound g hg)
    · rw [← beq_iff_eq.mp hname]
      exact hbinds _ _ (hd.bound g' hg')
  · exact ⟨d, hd.unchanged hclasses (fun _ => rfl) hn hbinds, .refl d⟩

end Context

end ProgramGen

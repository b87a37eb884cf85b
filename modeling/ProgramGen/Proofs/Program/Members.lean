import ProgramGen.Proofs.Generation.Plain
import ProgramGen.Proofs.Program.Inheritance
import ProgramGen.Proofs.Run.Context
import ProgramGen.Proofs.Scope.Overlay
import Mathlib.Data.List.Nodup

/-!
# What is left to be implemented

The abstract members of a type, climbed to through its classes, are abstract functions that it
inherits, each from the nearest class that has one of the name. They depend on the classes on the way
alone, and a class that implements all members of its superclass leaves none.
-/

namespace ProgramGen

variable {α : Type} {c c' : Context} {d : ClassDecl} {t t' : Ty} {n : String} {k : Nat} {m view : Subst}
variable {x : FuncDecl × Subst} {f : FuncDecl} {out out' xs : List (FuncDecl × Subst)}

/-! ## Classes by name -/

/-- Names tell the classes of a symbol table apart. -/
def Context.DistinctClasses (c : Context) : Prop := (c.programClasses.map (·.name)).Nodup

theorem Context.DistinctClasses.eq_of_name (h : c.DistinctClasses) {d d' : ClassDecl}
    (hd : d ∈ c.programClasses) (hd' : d' ∈ c.programClasses) (hname : d.name = d'.name) : d = d' :=
  List.inj_on_of_nodup_map h hd hd' hname

theorem Context.mem_programClasses_of_globalClass? {name : String} (h : c.globalClass? name = some d) :
    d ∈ c.programClasses ∧ d.name = name :=
  (Context.mem_of_globalClass? h).symm

/-- A class is found by its name. -/
theorem Context.DistinctClasses.globalClass? (h : c.DistinctClasses) (hd : d ∈ c.programClasses) :
    c.globalClass? d.name = some d := by
  have hown : c.own .cls .global = c.programClasses.map Decl.cls := by
    unfold programClasses
    rw [classes_global, own, ← declarations]
    induction c.declarations .global with
    | nil => rfl
    | cons y ys ih =>
      have hkind : (y.kind == .cls) = (asClass? y).isSome := by cases y <;> rfl
      have hcls : ∀ x, asClass? y = some x → y = .cls x := by
        intro x hx
        cases y <;> cases hx
        rfl
      rw [List.filterMap_cons, List.filter_cons, hkind, ih]
      cases hy : asClass? y with
      | none => rfl
      | some x => rw [hcls x hy]; rfl
  have hvisible : c.visible .cls .global = c.programClasses.map Decl.cls := by
    have hlineage : Namespace.global.lineage = [.global] := rfl
    rw [visible_eq_merged, hlineage, List.flatMap_singleton, hown]
    refine merged_eq_self ?_
    rw [List.map_map]
    exact h
  have hclasses : c.classes .global true = c.programClasses := by
    show (c.visible .cls .global).filterMap _ = _
    rw [hvisible, List.filterMap_map]
    exact List.filterMap_some
  rw [Context.globalClass?, class?, hclasses]
  cases hfind : c.programClasses.find? (·.name == d.name) with
  | none =>
    have := List.find?_eq_none.mp hfind d hd
    simp at this
  | some d' =>
    have hname : d'.name = d.name := by simpa using List.find?_some hfind
    rw [h.eq_of_name (List.mem_of_find?_eq_some hfind) hd hname]

/-! ## Names of members -/

/-- The names of inherited members. -/
def memberNames (xs : List (FuncDecl × Subst)) : List String := xs.map (·.1.name)

theorem mem_memberNames : n ∈ memberNames xs ↔ ∃ x ∈ xs, x.1.name = n := List.mem_map

theorem mem_memberNames_foldl_addInherited :
    n ∈ memberNames (xs.foldl addInherited out) ↔ n ∈ memberNames out ∨ n ∈ memberNames xs := by
  induction xs generalizing out with
  | nil => simp [memberNames]
  | cons x xs ih =>
    rw [List.foldl_cons, ih]
    have hadd : n ∈ memberNames (addInherited out x) ↔ n ∈ memberNames out ∨ n = x.1.name := by
      unfold addInherited
      split
      · rename_i hany
        obtain ⟨y, hy, hname⟩ := List.any_eq_true.mp hany
        refine ⟨.inl, ?_⟩
        rintro (h | rfl)
        · exact h
        · exact mem_memberNames.mpr ⟨y, hy, by simpa using hname⟩
      · simp [memberNames, eq_comm]
    rw [hadd, memberNames, memberNames, memberNames, List.map_cons, List.mem_cons, or_assoc]

theorem memberNames_addInherited_nodup (h : (memberNames out).Nodup) :
    (memberNames (xs.foldl addInherited out)).Nodup := by
  induction xs generalizing out with
  | nil => exact h
  | cons x xs ih =>
    refine ih ?_
    unfold addInherited
    split
    · exact h
    · rename_i hany
      rw [memberNames, List.map_append]
      refine List.Nodup.append h (List.nodup_singleton _) ?_
      simp only [List.map_cons, List.map_nil, List.disjoint_singleton]
      intro hmem
      obtain ⟨y, hy, hname⟩ := List.mem_map.mp hmem
      exact hany (List.any_eq_true.mpr ⟨y, hy, by simpa using hname⟩)

theorem mem_addOwn :
    x ∈ addOwn view out f ↔ (x ∈ out ∧ f.name ≠ x.1.name) ∨ (x = (f, view) ∧ f.isAbstract) := by
  unfold addOwn
  dsimp only
  have hne : (x.1.name != f.name) = true ↔ f.name ≠ x.1.name := bne_iff_ne.trans ne_comm
  by_cases habstract : f.isAbstract
  · rw [if_pos habstract, List.mem_append, List.mem_filter, hne, List.mem_singleton,
      and_iff_left habstract]
  · rw [if_neg habstract, List.mem_filter, hne, or_iff_left fun h => habstract h.2]

theorem mem_memberNames_addOwn : n ∈ memberNames (addOwn view out f) ↔
    (n ∈ memberNames out ∧ f.name ≠ n) ∨ (f.name = n ∧ f.isAbstract) := by
  simp only [mem_memberNames, mem_addOwn]
  grind

theorem memberNames_addOwn_nodup (h : (memberNames out).Nodup) :
    (memberNames (addOwn view out f)).Nodup := by
  have hfilter : (memberNames (out.filter (·.1.name != f.name))).Nodup :=
    h.sublist (List.Sublist.map _ List.filter_sublist)
  unfold addOwn
  dsimp only
  split
  · rw [memberNames, List.map_append]
    refine List.Nodup.append hfilter (List.nodup_singleton _) ?_
    simp only [List.map_cons, List.map_nil, List.disjoint_singleton, List.mem_map, List.mem_filter]
    rintro ⟨y, ⟨-, hne⟩, hname⟩
    simp [hname] at hne
  · exact hfilter

/-- What a class leaves is of its own, or inherited and not replaced. -/
theorem mem_foldl_addOwn_cases {fs : List FuncDecl} (h : x ∈ fs.foldl (addOwn view) out) :
    (x ∈ out ∧ ∀ f ∈ fs, f.name ≠ x.1.name) ∨ (x.1 ∈ fs ∧ x.2 = view ∧ x.1.isAbstract) := by
  induction fs generalizing out with
  | nil => exact .inl ⟨h, by simp⟩
  | cons f fs ih =>
    rcases ih h with ⟨h, hnone⟩ | ⟨hmem, hrest⟩
    · rcases mem_addOwn.mp h with ⟨h, hne⟩ | ⟨rfl, habstract⟩
      · exact .inl ⟨h, List.forall_mem_cons.mpr ⟨hne, hnone⟩⟩
      · exact .inr ⟨List.mem_cons_self, rfl, habstract⟩
    · exact .inr ⟨List.mem_cons_of_mem _ hmem, hrest⟩

/-- A class whose functions have different names leaves all of these. -/
theorem mem_foldl_addOwn {fs : List FuncDecl} (hfs : (fs.map (·.name)).Nodup) :
    x ∈ fs.foldl (addOwn view) out ↔
      (x ∈ out ∧ ∀ f ∈ fs, f.name ≠ x.1.name) ∨ (x.1 ∈ fs ∧ x.2 = view ∧ x.1.isAbstract) := by
  refine ⟨mem_foldl_addOwn_cases, fun h => ?_⟩
  induction fs generalizing out with
  | nil => exact h.elim And.left fun h => absurd h.1 List.not_mem_nil
  | cons f fs ih =>
    obtain ⟨hfresh, hfs⟩ := List.nodup_cons.mp hfs
    have hne : ∀ g ∈ fs, g.name ≠ f.name := fun g hg hname => hfresh (List.mem_map.mpr ⟨g, hg, hname⟩)
    refine ih hfs ?_
    rcases h with ⟨h, hnone⟩ | ⟨hmem, hview, habstract⟩
    · obtain ⟨hf, hnone⟩ := List.forall_mem_cons.mp hnone
      exact .inl ⟨mem_addOwn.mpr (.inl ⟨h, hf⟩), hnone⟩
    · rcases List.mem_cons.mp hmem with hf | hmem
      · refine .inl ⟨mem_addOwn.mpr (.inr ⟨Prod.ext hf hview, hf ▸ habstract⟩), fun g hg => ?_⟩
        exact hf ▸ hne g hg
      · exact .inr ⟨hmem, hview, habstract⟩

/-- The members that a class inherits. -/
def inheritedMembers (c : Context) (k : Nat) (view : Subst) (supers : List SuperDecl) :
    List (FuncDecl × Subst) :=
  supers.foldl (fun out s => (abstractMembersWithin c k (s.ty.subst view)).foldl addInherited out) []

theorem abstractMembersWithin_succ (h : c.globalClass? t.name = some d) :
    abstractMembersWithin c (k + 1) t =
      d.funcs.foldl (addOwn t.argMap) (inheritedMembers c k t.argMap d.supers) := by
  rw [abstractMembersWithin, h]
  rfl

theorem mem_memberNames_inheritedMembers {supers : List SuperDecl} :
    n ∈ memberNames (inheritedMembers c k view supers) ↔
      ∃ s ∈ supers, n ∈ memberNames (abstractMembersWithin c k (s.ty.subst view)) := by
  have hfold : ∀ (supers : List SuperDecl) (out : List (FuncDecl × Subst)),
      n ∈ memberNames (supers.foldl
        (fun out s => (abstractMembersWithin c k (s.ty.subst view)).foldl addInherited out) out) ↔
      n ∈ memberNames out ∨
        ∃ s ∈ supers, n ∈ memberNames (abstractMembersWithin c k (s.ty.subst view)) := by
    intro supers
    induction supers with
    | nil => simp
    | cons s supers ih =>
      intro out
      rw [List.foldl_cons, ih, mem_memberNames_foldl_addInherited]
      simp [or_assoc]
  exact (hfold supers []).trans (or_iff_right List.not_mem_nil)

theorem mem_inheritedMembers {supers : List SuperDecl} (h : x ∈ inheritedMembers c k view supers) :
    ∃ s ∈ supers, x ∈ abstractMembersWithin c k (s.ty.subst view) := by
  have hadd : ∀ (xs out : List (FuncDecl × Subst)), x ∈ xs.foldl addInherited out →
      x ∈ out ∨ x ∈ xs := by
    intro xs
    induction xs with
    | nil => exact fun out h => .inl h
    | cons y ys ih =>
      intro out h
      rcases ih _ h with h | h
      · unfold addInherited at h
        split at h <;> grind
      · exact .inr (List.mem_cons_of_mem _ h)
  have hfold : ∀ (supers : List SuperDecl) (out : List (FuncDecl × Subst)),
      x ∈ supers.foldl
        (fun out s => (abstractMembersWithin c k (s.ty.subst view)).foldl addInherited out) out →
      x ∈ out ∨ ∃ s ∈ supers, x ∈ abstractMembersWithin c k (s.ty.subst view) := by
    intro supers
    induction supers with
    | nil => exact fun out h => .inl h
    | cons s supers ih =>
      intro out h
      rcases ih _ h with h | ⟨s', hs', h⟩
      · exact (hadd _ _ h).imp_right fun h => ⟨s, List.mem_cons_self, h⟩
      · exact .inr ⟨s', List.mem_cons_of_mem _ hs', h⟩
  exact (hfold supers [] h).resolve_left List.not_mem_nil

/-- No two members of one name are left. -/
theorem abstractMembersWithin_nodup : (memberNames (abstractMembersWithin c k t)).Nodup := by
  cases k with
  | zero => exact List.nodup_nil
  | succ k =>
    rw [abstractMembersWithin]
    split
    · exact List.nodup_nil
    · rename_i d _
      have hinherited : ∀ (supers : List SuperDecl) (out : List (FuncDecl × Subst)),
          (memberNames out).Nodup → (memberNames (supers.foldl (fun out s =>
            (abstractMembersWithin c k (s.ty.subst t.argMap)).foldl addInherited out) out)).Nodup := by
        intro supers
        induction supers with
        | nil => exact fun _ h => h
        | cons s supers ih => exact fun out h => ih _ (memberNames_addInherited_nodup h)
      have hown : ∀ (fs : List FuncDecl) (out : List (FuncDecl × Subst)),
          (memberNames out).Nodup → (memberNames (fs.foldl (addOwn t.argMap) out)).Nodup := by
        intro fs
        induction fs with
        | nil => exact fun _ h => h
        | cons f fs ih => exact fun out h => ih _ (memberNames_addOwn_nodup h)
      exact hown _ _ (hinherited _ [] List.nodup_nil)

/-! ## Members are inherited -/

/-- **A member that is left to be implemented is an abstract function that the type inherits.** -/
theorem inherits_of_mem_abstractMembers (h : x ∈ abstractMembersWithin c k t) :
    x.1.isAbstract ∧ c.Inherits ClassDecl.funcs FuncDecl.name x.1.name t x.1 x.2 := by
  induction k generalizing t with
  | zero => cases h
  | succ k ih =>
    cases hd : c.globalClass? t.name with
    | none =>
      rw [abstractMembersWithin, hd] at h
      cases h
    | some d =>
      obtain ⟨hmem, hname⟩ := Context.mem_programClasses_of_globalClass? hd
      rw [abstractMembersWithin_succ hd] at h
      rcases mem_foldl_addOwn_cases h with ⟨h, hnone⟩ | ⟨hf, hview, habstract⟩
      · obtain ⟨sup, hsup, h⟩ := mem_inheritedMembers h
        obtain ⟨habstract, hinherits⟩ := ih h
        exact ⟨habstract, .above hmem hname hnone hsup hinherits⟩
      · rw [hview]
        exact ⟨habstract, .here hmem hname hf rfl⟩

/-! ## Members depend on the classes on the way -/

/-- Classes of a symbol table whose superclasses are among them. -/
structure Context.Settled (c : Context) (F : ClassDecl → Prop) : Prop where
  mem : ∀ d, F d → d ∈ c.programClasses
  supers : ∀ d, F d → ∀ sup ∈ d.supers, sup.ty.isObject ∧ ∃ d', F d' ∧ d'.name = sup.ty.name

theorem Ty.name_subst_of_isObject (h : t.isObject) : (t.subst m).name = t.name := by
  cases t <;> first | rfl | cases h

section Settled

variable {F : ClassDecl → Prop} (hF : c.Settled F) (hF' : ∀ d, F d → d ∈ c'.programClasses)
include hF hF'

/-- **What a type of a settled class inherits, it goes on to inherit.** -/
theorem Context.Inherits.of_settled {members : ClassDecl → List α} {name : α → String} {a : α}
    (hc : c.DistinctClasses) (h : c.Inherits members name n t a m) (ht : ∃ d, F d ∧ d.name = t.name) :
    c'.Inherits members name n t a m := by
  induction h with
  | @here t d a hd hname ha hn =>
    obtain ⟨d', hd', hname'⟩ := ht
    obtain rfl := hc.eq_of_name (hF.mem d' hd') hd (hname'.trans hname.symm)
    exact .here (hF' _ hd') hname ha hn
  | @above t d sup a m hd hname hnone hsup h ih =>
    obtain ⟨d', hd', hname'⟩ := ht
    obtain rfl := hc.eq_of_name (hF.mem d' hd') hd (hname'.trans hname.symm)
    obtain ⟨hobject, d₂, hd₂, hname₂⟩ := hF.supers _ hd' sup hsup
    refine .above (hF' _ hd') hname hnone hsup (ih ⟨d₂, hd₂, ?_⟩)
    rw [hname₂, Ty.name_subst_of_isObject hobject]

/-- The members that a type of a settled class leaves stay what they were. -/
theorem abstractMembersWithin_of_settled (hc : c.DistinctClasses) (hc' : c'.DistinctClasses)
    (ht : ∃ d, F d ∧ d.name = t.name) :
    abstractMembersWithin c' k t = abstractMembersWithin c k t := by
  induction k generalizing t with
  | zero => rfl
  | succ k ih =>
    obtain ⟨d, hd, hname⟩ := ht
    have hclass : c.globalClass? t.name = some d := hname ▸ hc.globalClass? (hF.mem d hd)
    have hclass' : c'.globalClass? t.name = some d := hname ▸ hc'.globalClass? (hF' d hd)
    have hinherited : inheritedMembers c' k t.argMap d.supers =
        inheritedMembers c k t.argMap d.supers := by
      have hstep : ∀ sup ∈ d.supers, abstractMembersWithin c' k (sup.ty.subst t.argMap) =
          abstractMembersWithin c k (sup.ty.subst t.argMap) := by
        intro sup hsup
        obtain ⟨hobject, d', hd', hname'⟩ := hF.supers d hd sup hsup
        exact ih ⟨d', hd', by rw [hname', Ty.name_subst_of_isObject hobject]⟩
      unfold inheritedMembers
      refine List.foldl_ext _ _ _ fun out sup hsup => ?_
      rw [hstep sup hsup]
    rw [abstractMembersWithin_succ hclass, abstractMembersWithin_succ hclass', hinherited]

end Settled

/-- To climb higher finds more names; the arguments of a type do not matter. -/
theorem memberNames_subset_succ {F : ClassDecl → Prop} (hF : c.Settled F) (hc : c.DistinctClasses)
    (ht : ∃ d, F d ∧ d.name = t.name) (hname : t'.name = t.name)
    (hn : n ∈ memberNames (abstractMembersWithin c k t)) :
    n ∈ memberNames (abstractMembersWithin c (k + 1) t') := by
  induction k generalizing t t' n with
  | zero => cases hn
  | succ k ih =>
    obtain ⟨d, hd, hdname⟩ := ht
    have hclass : c.globalClass? d.name = some d := hc.globalClass? (hF.mem d hd)
    rw [abstractMembersWithin_succ (hdname ▸ hclass)] at hn
    rw [abstractMembersWithin_succ (hname ▸ hdname ▸ hclass)]
    have hinherited : ∀ n ∈ memberNames (inheritedMembers c k t.argMap d.supers),
        n ∈ memberNames (inheritedMembers c (k + 1) t'.argMap d.supers) := by
      intro n hn
      obtain ⟨sup, hsup, hn⟩ := mem_memberNames_inheritedMembers.mp hn
      obtain ⟨hobject, d', hd', hname'⟩ := hF.supers d hd sup hsup
      refine mem_memberNames_inheritedMembers.mpr ⟨sup, hsup, ih ⟨d', hd', ?_⟩ ?_ hn⟩
      · rw [hname', Ty.name_subst_of_isObject hobject]
      · rw [Ty.name_subst_of_isObject hobject, Ty.name_subst_of_isObject hobject]
    have hown : ∀ (fs : List FuncDecl) (out out' : List (FuncDecl × Subst)),
        (∀ n ∈ memberNames out, n ∈ memberNames out') →
        ∀ n ∈ memberNames (fs.foldl (addOwn t.argMap) out),
          n ∈ memberNames (fs.foldl (addOwn t'.argMap) out') := by
      intro fs
      induction fs with
      | nil => exact fun _ _ h => h
      | cons f fs ihfs =>
        refine fun out out' h => ihfs _ _ fun n hn => ?_
        rw [mem_memberNames_addOwn] at hn ⊢
        exact hn.imp_left fun ⟨hn, hne⟩ => ⟨h n hn, hne⟩
    exact hown _ _ _ hinherited n hn

/-- **A class that implements all that it inherits is complete.** -/
theorem abstractMembers_eq_nil {F : ClassDecl → Prop} (hF : c.Settled F) (hc : c.DistinctClasses)
    (hd : d ∈ c.programClasses) (ht : t.name = d.name)
    (hsupers : ∀ sup ∈ d.supers, sup.ty.isObject ∧ ∃ d', F d' ∧ d'.name = sup.ty.name)
    (hown : ∀ f ∈ d.funcs, f.isAbstract = false)
    (himplements : ∀ sup ∈ d.supers, ∀ x ∈ abstractMembers c sup.ty, ∃ f ∈ d.funcs, f.name = x.1.name) :
    abstractMembers c t = [] := by
  have hclass : c.globalClass? t.name = some d := ht ▸ hc.globalClass? hd
  refine List.eq_nil_iff_forall_not_mem.mpr fun x hx => ?_
  unfold abstractMembers at hx
  rw [abstractMembersWithin_succ hclass] at hx
  rcases mem_foldl_addOwn_cases hx with ⟨hx, hnone⟩ | ⟨hf, -, habstract⟩
  · have hn : x.1.name ∈ memberNames (inheritedMembers c maxInheritance t.argMap d.supers) :=
      mem_memberNames.mpr ⟨x, hx, rfl⟩
    obtain ⟨sup, hsup, hn⟩ := mem_memberNames_inheritedMembers.mp hn
    obtain ⟨hobject, d', hd', hname'⟩ := hsupers sup hsup
    have hn : x.1.name ∈ memberNames (abstractMembersWithin c (maxInheritance + 1) sup.ty) :=
      memberNames_subset_succ hF hc ⟨d', hd', by rw [hname', Ty.name_subst_of_isObject hobject]⟩
        (Ty.name_subst_of_isObject hobject).symm hn
    obtain ⟨y, hy, hname⟩ := mem_memberNames.mp hn
    obtain ⟨f, hf, hfname⟩ := himplements sup hsup y hy
    exact hnone f hf (hfname.trans hname)
  · rw [hown _ hf] at habstract
    cases habstract

end ProgramGen

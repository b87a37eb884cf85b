import ProgramGen.Class.Subtypes
import ProgramGen.Proofs.Binding.Composition
import ProgramGen.Proofs.Subtyping.Closure

/-!
# The search for subtypes

What is found among classes and builtin types lies below the target. A generic class found without
arguments lies below it whatever its arguments will be: something that the class inherits settles the
question and mentions no parameter, and what a class inherits from classes and interfaces it inherits
under every substitution, as to take supertypes commutes with it. Classes without parameters and
builtin types are all found.
-/

namespace ProgramGen

/-! ## Inheritable types -/

/-- A class or interface type that a declaration may inherit, over the generic classes in `C`: an
instance with as many arguments as there are parameters, in which only the names in `N` are open, or a
type without arguments. What a type without arguments carries as supertypes has nothing open. -/
inductive Ty.Inheritable (C : TypeCtor → Prop) : (N : String → Prop) → Ty → Prop where
  | builtin {N n k l b ss} (hs : ∀ s ∈ ss, Inheritable C (fun _ => False) s) :
      Inheritable C N (.builtin n k l b ss)
  | simple {N n ss} (hs : ∀ s ∈ ss, Inheritable C (fun _ => False) s) : Inheritable C N (.simple n ss)
  | applied {N c args} (hc : C c) (hlength : args.length = c.params.length)
      (hargs : ∀ a ∈ args, ∀ p ∈ a.openParams, N p.name) : Inheritable C N (.applied c args)

/-- Every class inherits classes and interfaces, which mention only its own parameters. -/
def HeadersInheritable (C : TypeCtor → Prop) : Prop :=
  ∀ c, C c → ∀ s ∈ c.supers, s.Inheritable C fun n => ∃ q ∈ c.params, q.name = n

variable {C : TypeCtor → Prop} {N N' : String → Prop} {s t target : Ty} {m : Subst} {c d : TypeCtor}
variable {args above : List Ty} {ps : List TypeParam} {p : TypeParam}

namespace Ty

theorem mem_openParams_applied : p ∈ (applied c args).openParams ↔ ∃ a ∈ args, p ∈ a.openParams := by
  induction args with
  | nil => simp
  | cons x xs ih => simp [ih]

namespace Inheritable

theorem isWildcard (h : t.Inheritable C N) : t.isWildcard = false := by
  cases h <;> rfl

theorem mono (h : t.Inheritable C N) (hN : ∀ n, N n → N' n) : t.Inheritable C N' := by
  cases h with
  | builtin hs => exact .builtin hs
  | simple hs => exact .simple hs
  | applied hc hlength hargs => exact .applied hc hlength fun a ha p hp => hN _ (hargs a ha p hp)

theorem openParams (h : t.Inheritable C N) (hp : p ∈ t.openParams) : N p.name := by
  cases h with
  | builtin | simple => cases hp
  | applied _ _ hargs =>
    obtain ⟨a, ha, hp⟩ := mem_openParams_applied.mp hp
    exact hargs a ha p hp

theorem subst_eq_self (h : t.Inheritable C fun _ => False) (m : Subst) : t.subst m = t :=
  subst_of_openParams_eq_nil (List.eq_nil_iff_forall_not_mem.mpr fun _ hp => h.openParams hp) m

theorem subst (h : t.Inheritable C N)
    (hm : ∀ n, N n → ∃ u, m.lookup n = some u ∧ ∀ p ∈ u.openParams, N' p.name) :
    (t.subst m).Inheritable C N' := by
  cases h with
  | builtin hs => exact .builtin hs
  | simple hs => exact .simple hs
  | applied hc hlength hargs =>
    rw [Ty.subst, substList_eq]
    refine .applied hc (by simpa using hlength) fun a' ha' p hp => ?_
    obtain ⟨a, ha, rfl⟩ := List.mem_map.mp ha'
    obtain ⟨q, hq, h⟩ := exists_of_mem_openParams_subst hp
    obtain ⟨u, hu, hopen⟩ := hm _ (hargs a ha q hq)
    rcases h with ⟨hnone, -⟩ | ⟨u', hu', hp⟩
    · rw [Subst.get?, hu] at hnone
      cases hnone
    · rw [Subst.get?, hu, Option.some.injEq] at hu'
      exact hopen p (hu' ▸ hp)

/-- What an inheritable type inherits is inheritable, and the same names are open in it. -/
theorem of_mem_supertypes (h : t.Inheritable C N) (hC : HeadersInheritable C) (hs : s ∈ t.supertypes) :
    s.Inheritable C N := by
  cases h with
  | builtin hss | simple hss => exact (hss s hs).mono fun _ => False.elim
  | applied hc hlength hargs =>
    obtain ⟨w, hw, rfl⟩ := List.mem_map.mp hs
    refine (hC _ hc w hw).subst fun n hn => ?_
    obtain ⟨u, hu⟩ := Subst.exists_lookup_ofArgs hlength hn
    exact ⟨u, hu, hargs u (Subst.mem_of_lookup_ofArgs hu)⟩

theorem of_inherits (h : t.Inheritable C N) (hC : HeadersInheritable C) (hs : t.Inherits s) :
    s.Inheritable C N := by
  induction hs with
  | refl => exact h
  | tail _ hs ih => exact ih.of_mem_supertypes hC hs

/-- **To take supertypes commutes with a substitution.** -/
theorem supertypes_subst (h : t.Inheritable C N) (hC : HeadersInheritable C) (m : Subst) :
    (t.subst m).supertypes = t.supertypes.map (Ty.subst m) := by
  cases h with
  | builtin hs | simple hs =>
    simp only [Ty.subst, supertypes]
    rw [List.map_congr_left fun s h => (hs s h).subst_eq_self m, List.map_id']
  | applied hc hlength =>
    simp only [Ty.subst, supertypes, substList_eq, List.map_map]
    refine List.map_congr_left fun w hw => ?_
    exact (subst_ofArgs_subst (fun p hp => (hC _ hc w hw).openParams hp) hlength).symm

/-- What a type inherits, it inherits under every substitution. -/
theorem inherits_subst (h : t.Inheritable C N) (hC : HeadersInheritable C) (m : Subst)
    (hs : t.Inherits s) : (t.subst m).Inherits (s.subst m) := by
  induction hs with
  | refl => exact .refl
  | @tail s s' hts hs ih =>
    refine ih.tail ?_
    rw [(h.of_inherits hC hts).supertypes_subst hC m]
    exact List.mem_map_of_mem hs

end Inheritable

/-- Parameters that stand for themselves are left for what comes after. -/
theorem subst_ownArgs_subst (h : ∀ p ∈ t.openParams, ∃ u, m.get? p = some u) :
    (t.subst (Subst.ofArgs ps (ps.map .param))).subst m = t.subst m := by
  rw [subst_andThen]
  refine subst_of_extends (fun n u hu => ?_) h
  rw [Subst.lookup_andThen]
  cases hown : (Subst.ofArgs ps (ps.map .param)).lookup n with
  | none => exact hu
  | some v =>
    obtain ⟨x, hx, rfl, rfl⟩ := Subst.mem_of_lookup_ofList hown
    obtain ⟨q, -, rfl⟩ : ∃ q ∈ ps, (q, Ty.param q) = x := by
      rw [← List.map_id ps, List.map_map, List.zip_map'] at hx
      exact List.mem_map.mp hx
    obtain ⟨n, v, b⟩ := q
    have hu' : m.lookup n = some u := hu
    simp only [Option.map_some, Option.some_or, subst, hu']

end Ty

/-- **What a class inherits from its declaration, its instances inherit**, with their arguments. -/
theorem TypeCtor.inherits_apply (hC : HeadersInheritable C) (hc : C c)
    (hlength : args.length = c.params.length) (h : c.ownInstance.Inherits s) (hne : c.ownInstance ≠ s) :
    (c.apply args).Inherits (s.subst (Subst.ofArgs c.params args)) := by
  rcases Relation.ReflTransGen.cases_head h with rfl | ⟨first, hfirst, h⟩
  · exact absurd rfl hne
  have hown : c.ownInstance.Inheritable C fun n => ∃ q ∈ c.params, q.name = n := by
    refine .applied hc (by simp) fun a ha p hp => ?_
    obtain ⟨q, hq, rfl⟩ := List.mem_map.mp ha
    obtain rfl : p = q := by simpa using hp
    exact ⟨p, hq, rfl⟩
  have hinherits := (hown.of_mem_supertypes hC hfirst).inherits_subst hC (Subst.ofArgs c.params args) h
  obtain ⟨w, hw, rfl⟩ := List.mem_map.mp hfirst
  rw [Ty.subst_ownArgs_subst fun p hp =>
    Subst.exists_lookup_ofArgs hlength ((hC c hc w hw).openParams hp)] at hinherits
  exact hinherits.head (List.mem_map_of_mem hw)

/-! ## Generic classes -/

/-- A class is found among its supertypes as such, by one that mentions no variables and lies below the
target, or applied to what makes it a subtype. -/
theorem subtypeFrom?_eq_some (h : subtypeFrom? c target above = some t) :
    (t = .constructor c ∧ ∃ s ∈ above, s.name = target.name ∧ s.hasVariables = false ∧
        s.isSubtype target) ∨
      ∃ args, t = c.apply args ∧ t.isSubtype target := by
  induction above with
  | nil => cases h
  | cons s rest ih =>
    rw [subtypeFrom?] at h
    split at h
    · exact (ih h).imp_left fun ⟨ht, s, hs, hrest⟩ => ⟨ht, s, List.mem_cons_of_mem _ hs, hrest⟩
    rename_i hname
    split at h
    · rename_i hclosed
      split at h
      · cases h
        exact .inl ⟨rfl, s, List.mem_cons_self, not_not.mp hname, by simpa using hclosed, ‹_›⟩
      · cases h
    split at h
    · cases h
    split at h
    · cases h
    split at h
    · extract_lets u at h
      split at h
      · obtain rfl := Option.some.inj h
        exact .inr ⟨_, rfl, ‹_›⟩
      · cases h
    · cases h

/-- An instance that is found has the name of the class and is a subtype. -/
theorem subtypeInstance?_eq_some (h : subtypeInstance? c target = some t) :
    (t = .constructor c ∧ (target.isTop ∨ ∃ s, c.ownInstance.Inherits s ∧ c.ownInstance ≠ s ∧
        s.hasVariables = false ∧ s.isSubtype target)) ∨
      t.isConstructor = false ∧ t.name = c.name ∧ t.isSubtype target := by
  unfold subtypeInstance? at h
  split at h
  · cases h
    exact .inl ⟨rfl, .inl ‹_›⟩
  split at h
  · rename_i hname
    split at h
    · rename_i happlied
      obtain rfl := Option.some.inj h
      refine .inr ⟨?_, hname.symm, Ty.isSubtype_refl _⟩
      cases target <;> first | rfl | cases happlied
    · cases h
  · rename_i hname
    rcases subtypeFrom?_eq_some h with ⟨rfl, s, hs, hsname, hclosed, hbelow⟩ | ⟨args, rfl, hbelow⟩
    · refine .inl ⟨rfl, .inr ⟨s, Ty.mem_allSupertypes.mp (List.mem_of_mem_drop hs), ?_, hclosed, hbelow⟩⟩
      rintro rfl
      exact hname hsname
    · exact .inr ⟨rfl, rfl, hbelow⟩

/-- **A class that is found without arguments lies below the target whatever they are.** -/
theorem isSubtype_apply_of_subtypeInstance? (hC : HeadersInheritable C) (hc : C c)
    (htarget : target.isWildcard = false) (h : subtypeInstance? c target = some (.constructor d))
    (hlength : args.length = d.params.length) : (d.apply args).isSubtype target := by
  rcases subtypeInstance?_eq_some h with ⟨hd, habove⟩ | ⟨hd, -⟩
  · obtain rfl : d = c := by simpa using hd
    rcases habove with htop | ⟨s, hs, hne, hclosed, hbelow⟩
    · exact Ty.isSubtype_of_isTop htop
    -- The instance inherits the same, as substitution leaves a type without variables alone.
    have hinherits := TypeCtor.inherits_apply hC hc hlength hs hne
    rw [Ty.subst_of_openParams_eq_nil (Ty.openParams_eq_nil hclosed)] at hinherits
    have hinstance : (d.apply args).Inheritable C fun _ => True :=
      .applied hc hlength fun _ _ _ _ => trivial
    refine hinherits.isSubtype (fun t ht => ?_) htarget hbelow
    exact (hinstance.of_inherits hC (Ty.mem_allSupertypes.mp ht)).isWildcard
  · cases hd

/-! ## Classes and builtin types -/

/-- A class is looked at in a search: without `withSelf` it is not the class of the target, and with
`concreteOnly` it is neither abstract nor an interface. -/
def ClassDecl.Eligible (d : ClassDecl) (target : Ty) (withSelf concreteOnly : Bool) : Prop :=
  (concreteOnly → d.isAbstract = false) ∧ (withSelf = false → d.name ≠ target.name)

variable {classes : List ClassDecl} {builtins : List Ty} {withSelf concreteOnly : Bool} {decl : ClassDecl}

theorem mem_findSubtypes : t ∈ findSubtypes target classes builtins withSelf concreteOnly ↔
    (∃ d ∈ classes, d.Eligible target withSelf concreteOnly ∧ d.subtypeOf? target = some t) ∨
      t ∈ builtins ∧ t.isConstructor = false ∧ (withSelf = false → t ≠ target) ∧ t.isSubtype target := by
  have hclass : ∀ d : ClassDecl,
      (if (concreteOnly && d.isAbstract) || (!withSelf && d.name == target.name) then none
        else d.subtypeOf? target) = some t ↔
      d.Eligible target withSelf concreteOnly ∧ d.subtypeOf? target = some t := by
    intro d
    unfold ClassDecl.Eligible
    cases concreteOnly <;> cases withSelf <;> cases d.isAbstract <;> simp
  have hbuiltin : (!t.isConstructor && (withSelf || t != target) && t.isSubtype target) = true ↔
      t.isConstructor = false ∧ (withSelf = false → t ≠ target) ∧ t.isSubtype target := by
    cases withSelf <;> simp [and_assoc]
  simp only [findSubtypes, List.mem_append, List.mem_filterMap, List.mem_filter, hclass, hbuiltin]

/-- What is found for a class is named like it. It is a constructor only for a generic class, and a
subtype of the target otherwise. -/
theorem ClassDecl.subtypeOf?_eq_some (h : decl.subtypeOf? target = some t) :
    t.name = decl.name ∧ (t.isConstructor = false → t.isSubtype target) ∧
      ∀ c, t = .constructor c → decl.isGeneric ∧ subtypeInstance? decl.ctor target = some t := by
  unfold subtypeOf? at h
  split at h
  · rename_i hgeneric
    refine ⟨?_, fun ht => ?_, fun c _ => ⟨hgeneric, h⟩⟩
    · rcases subtypeInstance?_eq_some h with ⟨rfl, -⟩ | ⟨-, hname, -⟩
      · rfl
      · exact hname
    · rcases subtypeInstance?_eq_some h with ⟨rfl, -⟩ | ⟨-, -, hbelow⟩
      · cases ht
      · exact hbelow
  · rename_i hgeneric
    have htype : decl.type = .simple decl.name decl.supertypes := if_pos (by simpa [isGeneric] using hgeneric)
    rw [htype] at h
    split at h
    · obtain rfl := Option.some.inj h
      exact ⟨rfl, fun _ => ‹_›, fun c hc => by cases hc⟩
    · cases h

/-- **The search for subtypes is sound, and complete for classes without parameters and for builtin
types.** -/
theorem findSubtypes_correct (hC : HeadersInheritable C) (hclasses : ∀ d ∈ classes, d.isGeneric → C d.ctor)
    (htarget : target.hasWildcards = false) (builtins : List Ty) (withSelf concreteOnly : Bool) :
    let found := findSubtypes target classes builtins withSelf concreteOnly
    (∀ t ∈ found, t.isConstructor = false → t.isSubtype target) ∧
    (∀ c, .constructor c ∈ found → ∀ args, args.length = c.params.length →
      (c.apply args).isSubtype target) ∧
    (∀ t ∈ found, t ∈ builtins ∨ ∃ d ∈ classes, d.Eligible target withSelf concreteOnly ∧ t.name = d.name) ∧
    (withSelf = false → target ∉ found) ∧
    (∀ d ∈ classes, d.isGeneric = false → d.Eligible target withSelf concreteOnly →
      d.type.isSubtype target → d.type ∈ found) ∧
    ∀ b ∈ builtins, b.isConstructor = false → (withSelf = false → b ≠ target) → b.isSubtype target →
      b ∈ found := by
  intro found
  have hnot : target.isWildcard = false := by
    cases target <;> first | rfl | cases htarget
  refine ⟨fun t ht hconstructor => ?_, fun c hc args hlength => ?_, fun t ht => ?_, fun hself ht => ?_,
    fun d hd hgeneric heligible hbelow => ?_, fun b hb hconstructor hself hbelow => ?_⟩
  · rcases mem_findSubtypes.mp ht with ⟨d, -, -, h⟩ | ⟨-, -, -, hbelow⟩
    · exact (ClassDecl.subtypeOf?_eq_some h).2.1 hconstructor
    · exact hbelow
  · rcases mem_findSubtypes.mp hc with ⟨d, hd, -, h⟩ | ⟨-, hconstructor, -⟩
    · obtain ⟨hgeneric, h⟩ := (ClassDecl.subtypeOf?_eq_some h).2.2 c rfl
      exact isSubtype_apply_of_subtypeInstance? hC (hclasses d hd hgeneric) hnot h hlength
    · cases hconstructor
  · rcases mem_findSubtypes.mp ht with ⟨d, hd, heligible, h⟩ | ⟨hb, -⟩
    · exact .inr ⟨d, hd, heligible, (ClassDecl.subtypeOf?_eq_some h).1⟩
    · exact .inl hb
  · rcases mem_findSubtypes.mp ht with ⟨d, -, heligible, h⟩ | ⟨-, -, hne, -⟩
    · exact heligible.2 hself (ClassDecl.subtypeOf?_eq_some h).1.symm
    · exact hne hself rfl
  · refine mem_findSubtypes.mpr (.inl ⟨d, hd, heligible, ?_⟩)
    rw [ClassDecl.subtypeOf?, hgeneric, if_neg Bool.false_ne_true, if_pos hbelow]
  · exact mem_findSubtypes.mpr (.inr ⟨hb, hconstructor, hself, hbelow⟩)

/-- A search below an interface that a generic class reaches through another: the class is found without
arguments, and each of its instances is a subtype. -/
theorem findSubtypes_correct_boxes :
    let shape : ClassDecl := .plain "Shape" .interface
    let base : ClassDecl := ⟨"Base", .abstract, [.plain "T"], [⟨shape.type, none⟩], [], [], false⟩
    let box : ClassDecl :=
      ⟨"Box", .regular, [.plain "T"], [⟨base.ctor.apply [.param (.plain "T")], some []⟩], [], [], false⟩
    let disc : ClassDecl := ⟨"Disc", .regular, [], [⟨shape.type, none⟩], [], [], false⟩
    let found := findSubtypes shape.type [shape, base, box, disc] [Language.kotlin.anyType] false true
    .constructor box.ctor ∈ found ∧ shape.type ∉ found ∧ disc.type ∈ found ∧
      ∀ t, (box.ctor.apply [t]).isSubtype shape.type := by
  intro shape base box disc found
  have hheaders : HeadersInheritable fun c => c = base.ctor ∨ c = box.ctor := by
    rintro c (rfl | rfl) s hs
    · obtain rfl := List.mem_singleton.mp hs
      exact .simple fun _ h => by cases h
    · obtain rfl := List.mem_singleton.mp hs
      refine .applied (.inl rfl) rfl fun a ha p hp => ?_
      obtain rfl := List.mem_singleton.mp ha
      obtain rfl := List.mem_singleton.mp hp
      exact ⟨_, List.mem_singleton_self _, rfl⟩
  have hclasses : ∀ d ∈ [shape, base, box, disc], d.isGeneric → d.ctor = base.ctor ∨ d.ctor = box.ctor := by
    decide +kernel
  have hfound : .constructor box.ctor ∈ found := by decide +kernel
  have hclosed : shape.type.hasWildcards = false := by decide +kernel
  obtain ⟨-, hinstances, -, hself, hplain, -⟩ :=
    findSubtypes_correct hheaders hclasses hclosed [Language.kotlin.anyType] false true
  refine ⟨hfound, hself rfl, ?_, fun t => hinstances box.ctor hfound [t] rfl⟩
  exact hplain disc (by simp) rfl ⟨fun _ => rfl, fun _ => by decide⟩ (by decide +kernel)

end ProgramGen

import ProgramGen.Proofs.Program.Interfaces

/-!
# Members and the nearest declaration

Where superclasses come in single lines, no longer than they are climbed, a type leaves exactly the
names to be implemented whose nearest declaration upwards is abstract, and each is seen through the
arguments of the superclasses on the way. A closure can implement an interface without fields if that
is one name, and the function is not generic.
-/

namespace ProgramGen

variable {c : Context} {d : ClassDecl} {t : Ty} {n : String} {k : Nat} {m m' view : Subst}
variable {f g : FuncDecl} {x : FuncDecl × Subst} {out xs : List (FuncDecl × Subst)}

/-! ## Lines of superclasses -/

/-- The classes of a symbol table come in lines: a class has at most one superclass, which is a class of
the table, and its functions have different names. No line has more links than are climbed, so that no
class is above itself. -/
structure Context.Lineal (c : Context) : Prop where
  distinct : c.DistinctClasses
  single : ∀ d ∈ c.programClasses, d.supers.length ≤ 1
  settled : c.Settled (· ∈ c.programClasses)
  funcs : ∀ d ∈ c.programClasses, (d.funcs.map (·.name)).Nodup
  links : ∀ d ∈ c.programClasses, ∀ ds, List.IsChain c.IsSuper (d :: ds) → ds.length ≤ maxInheritance

/-- The type is a class of the symbol table, or an instance of one. -/
def Context.HasType (c : Context) (t : Ty) : Prop := t.isObject ∧ ∃ d ∈ c.programClasses, d.name = t.name

theorem eq_of_mem_of_length_le_one {α : Type} {xs : List α} {a b : α} (h : xs.length ≤ 1) (ha : a ∈ xs)
    (hb : b ∈ xs) : a = b := by
  match xs, h with
  | [y], _ => rw [List.mem_singleton.mp ha, List.mem_singleton.mp hb]

/-- What is inherited under a name has the name. -/
theorem Context.Inherits.name_eq {α : Type} {members : ClassDecl → List α} {name : α → String} {a : α}
    (h : c.Inherits members name n t a m) : name a = n := by
  induction h with
  | here _ _ _ hn => exact hn
  | above _ _ _ _ _ ih => exact ih

/-- **The nearest declaration of a name is one.** -/
theorem Context.Lineal.nearest_unique (hc : c.Lineal)
    (h : c.Inherits ClassDecl.funcs FuncDecl.name n t f m)
    (h' : c.Inherits ClassDecl.funcs FuncDecl.name n t g m') : f = g ∧ m = m' := by
  induction h with
  | here hd hname hf hn =>
    cases h' with
    | here hd' hname' hg hn' =>
      obtain rfl := hc.distinct.eq_of_name hd hd' (hname.trans hname'.symm)
      exact ⟨List.inj_on_of_nodup_map (hc.funcs _ hd) hf hg (hn.trans hn'.symm), rfl⟩
    | above hd' hname' hnone =>
      obtain rfl := hc.distinct.eq_of_name hd hd' (hname.trans hname'.symm)
      exact absurd hn (hnone _ hf)
  | above hd hname hnone hsup _ ih =>
    cases h' with
    | here hd' hname' hg hn' =>
      obtain rfl := hc.distinct.eq_of_name hd hd' (hname.trans hname'.symm)
      exact absurd hn' (hnone _ hg)
    | above hd' hname' _ hsup' h' =>
      obtain rfl := hc.distinct.eq_of_name hd hd' (hname.trans hname'.symm)
      obtain rfl := eq_of_mem_of_length_le_one (hc.single _ hd) hsup hsup'
      exact ih h'

/-! ## What is climbed to -/

/-- Members of different names are inherited as they are. -/
theorem foldl_addInherited_eq (h : (memberNames (out ++ xs)).Nodup) :
    xs.foldl addInherited out = out ++ xs := by
  induction xs generalizing out with
  | nil => simp
  | cons x xs ih =>
    have hfresh : out.any (·.1.name == x.1.name) = false := by
      refine List.any_eq_false.mpr fun y hy hname => ?_
      rw [memberNames, List.map_append, List.nodup_append] at h
      exact h.2.2 _ (List.mem_map_of_mem hy) _ (List.mem_map_of_mem List.mem_cons_self) (by simpa using hname)
    have hadd : addInherited out x = out ++ [x] := by
      rw [addInherited, hfresh, if_neg Bool.false_ne_true]
    rw [List.foldl_cons, hadd, ih (by simpa using h)]
    simp

theorem mem_inheritedMembers_iff {supers : List SuperDecl} (h : supers.length ≤ 1) :
    x ∈ inheritedMembers c k view supers ↔
      ∃ s ∈ supers, x ∈ abstractMembersWithin c k (s.ty.subst view) := by
  refine ⟨mem_inheritedMembers, ?_⟩
  rintro ⟨s, hs, hx⟩
  obtain rfl : supers = [s] := by
    match supers, h with
    | [y], _ => rw [List.mem_singleton.mp hs]
  show x ∈ List.foldl addInherited [] _
  rwa [foldl_addInherited_eq (by simpa using abstractMembersWithin_nodup)]

/-- **The nearest abstract declaration is climbed to**, if there are links enough. -/
theorem mem_abstractMembersWithin_of_inherits (hc : c.Lineal)
    (h : c.Inherits ClassDecl.funcs FuncDecl.name n t f m) (habstract : f.isAbstract)
    (hd : d ∈ c.programClasses) (ht : d.name = t.name)
    (hlinks : ∀ ds, List.IsChain c.IsSuper (d :: ds) → ds.length < k) :
    (f, m) ∈ abstractMembersWithin c k t := by
  induction h generalizing d k with
  | here hd' hname hf =>
    obtain rfl := hc.distinct.eq_of_name hd hd' (ht.trans hname.symm)
    obtain ⟨k, rfl⟩ := Nat.exists_eq_add_one.mpr (hlinks [] (.singleton _))
    rw [abstractMembersWithin_succ (ht ▸ hc.distinct.globalClass? hd), mem_foldl_addOwn (hc.funcs _ hd)]
    exact .inr ⟨hf, rfl, habstract⟩
  | @above t d' sup f m hd' hname hnone hsup h ih =>
    obtain rfl := hc.distinct.eq_of_name hd hd' (ht.trans hname.symm)
    obtain ⟨k, rfl⟩ := Nat.exists_eq_add_one.mpr (hlinks [] (.singleton _))
    rw [abstractMembersWithin_succ (ht ▸ hc.distinct.globalClass? hd), mem_foldl_addOwn (hc.funcs _ hd)]
    obtain ⟨hobject, above, habove, hname'⟩ := hc.settled.supers _ hd sup hsup
    refine .inl ⟨(mem_inheritedMembers_iff (hc.single _ hd)).mpr ⟨sup, hsup, ?_⟩, fun b hb => ?_⟩
    · refine ih habstract habove (by rw [hname', Ty.name_subst_of_isObject hobject]) fun ds hds => ?_
      have := hlinks (above :: ds) (.cons_cons ⟨habove, sup, hsup, hname'⟩ hds)
      simpa using this
    · exact h.name_eq.symm ▸ hnone b hb

/-- **A type leaves the functions to be implemented that are nearest to it and abstract.** -/
theorem mem_abstractMembers (hc : c.Lineal) (ht : c.HasType t) :
    (f, m) ∈ abstractMembers c t ↔
      f.isAbstract ∧ c.Inherits ClassDecl.funcs FuncDecl.name f.name t f m := by
  refine ⟨inherits_of_mem_abstractMembers, fun ⟨habstract, h⟩ => ?_⟩
  obtain ⟨-, d, hd, hname⟩ := ht
  exact mem_abstractMembersWithin_of_inherits hc h habstract hd hname fun ds hds =>
    Nat.lt_succ_of_le (hc.links d hd ds hds)

/-! ## One function -/

/-- Of the names that a type inherits, the function's is the only one whose nearest declaration is
abstract, and the function is that. -/
structure Context.LeavesOnly (c : Context) (t : Ty) (f : FuncDecl) (m : Subst) : Prop where
  isAbstract : f.isAbstract
  nearest : c.Inherits ClassDecl.funcs FuncDecl.name f.name t f m
  only : ∀ n g m', c.Inherits ClassDecl.funcs FuncDecl.name n t g m' → g.isAbstract → n = f.name

theorem abstractMembers_eq_singleton (hc : c.Lineal) (ht : c.HasType t) :
    abstractMembers c t = [(f, m)] ↔ c.LeavesOnly t f m := by
  constructor
  · intro h
    obtain ⟨habstract, hnearest⟩ := (mem_abstractMembers hc ht).mp (h ▸ List.mem_singleton_self _)
    refine ⟨habstract, hnearest, fun n g m' hg hgabstract => ?_⟩
    obtain rfl := hg.name_eq
    have hmem := (mem_abstractMembers hc ht).mpr ⟨hgabstract, hg⟩
    rw [h, List.mem_singleton, Prod.mk.injEq] at hmem
    rw [hmem.1]
  · intro h
    have hmem : (f, m) ∈ abstractMembers c t := (mem_abstractMembers hc ht).mpr ⟨h.isAbstract, h.nearest⟩
    have hnodup : (memberNames (abstractMembers c t)).Nodup := abstractMembersWithin_nodup
    have honly : ∀ x ∈ abstractMembers c t, x.1.name = f.name := fun x hx => by
      obtain ⟨habstract, hx⟩ := inherits_of_mem_abstractMembers hx
      exact h.only _ _ _ hx habstract
    generalize abstractMembers c t = xs at hmem hnodup honly
    match xs with
    | [x] => rw [List.mem_singleton.mp hmem]
    | x :: y :: xs =>
      refine absurd ((honly x (by simp)).trans (honly y (by simp)).symm) fun hname => ?_
      simp [memberNames, hname] at hnodup

/-- **What is left to be implemented is what is abstract at its nearest declaration.** -/
theorem abstractMembers_correct (hc : c.Lineal) (ht : c.HasType t) :
    (memberNames (abstractMembers c t)).Nodup ∧
    (∀ n, n ∈ memberNames (abstractMembers c t) ↔
      ∃ f m, c.Inherits ClassDecl.funcs FuncDecl.name n t f m ∧ f.isAbstract) ∧
    (∀ n f g m m', c.Inherits ClassDecl.funcs FuncDecl.name n t f m →
      c.Inherits ClassDecl.funcs FuncDecl.name n t g m' → f = g ∧ m = m') ∧
    (∀ f m, (f, m) ∈ abstractMembers c t →
      c.Inherits ClassDecl.funcs FuncDecl.name f.name t f m) ∧
    (isSam c t ↔ ∃ d ∈ c.programClasses, d.name = t.name ∧ d.kind = .interface ∧ d.fields = [] ∧
      ∃ f m, c.LeavesOnly t f m ∧ f.isGeneric = false) ∧
    ∀ l signature, samSignature? c l t = some signature →
      ∃ f m, c.LeavesOnly t f m ∧
        signature = l.functionType (f.paramTypes.map (Ty.subst m)) (f.ret.subst m) := by
  have hsam : ∀ f m, samFunction? c t = some (f, m) ↔ (∃ d ∈ c.programClasses, d.name = t.name ∧
      d.kind = .interface ∧ d.fields = []) ∧ c.LeavesOnly t f m ∧ f.isGeneric = false := by
    intro f m
    rw [samFunction?_eq_some, ← abstractMembers_eq_singleton hc ht]
    constructor
    · rintro ⟨-, d, hd, hkind, hfields, hmembers, hgeneric⟩
      obtain ⟨hmem, hname⟩ := Context.mem_programClasses_of_globalClass? hd
      exact ⟨⟨d, hmem, hname, hkind, hfields⟩, hmembers, hgeneric⟩
    · rintro ⟨⟨d, hd, hname, hkind, hfields⟩, hmembers, hgeneric⟩
      exact ⟨ht.1, d, hname ▸ hc.distinct.globalClass? hd, hkind, hfields, hmembers, hgeneric⟩
  refine ⟨abstractMembersWithin_nodup, fun n => ?_, fun n f g m m' => hc.nearest_unique,
    fun f m h => ((mem_abstractMembers hc ht).mp h).2, ?_, fun l signature h => ?_⟩
  · rw [mem_memberNames]
    constructor
    · rintro ⟨⟨f, m⟩, hmem, rfl⟩
      obtain ⟨habstract, h⟩ := (mem_abstractMembers hc ht).mp hmem
      exact ⟨f, m, h, habstract⟩
    · rintro ⟨f, m, h, habstract⟩
      obtain rfl := h.name_eq
      exact ⟨(f, m), (mem_abstractMembers hc ht).mpr ⟨habstract, h⟩, rfl⟩
  · rw [isSam, Option.isSome_iff_exists]
    constructor
    · rintro ⟨⟨f, m⟩, h⟩
      obtain ⟨⟨d, hd, hname, hkind, hfields⟩, hleaves, hgeneric⟩ := (hsam f m).mp h
      exact ⟨d, hd, hname, hkind, hfields, f, m, hleaves, hgeneric⟩
    · rintro ⟨d, hd, hname, hkind, hfields, f, m, hleaves, hgeneric⟩
      exact ⟨(f, m), (hsam f m).mpr ⟨⟨d, hd, hname, hkind, hfields⟩, hleaves, hgeneric⟩⟩
  · unfold samSignature? at h
    split at h
    · cases h
    · rename_i f m hfunc
      extract_lets params ret at h
      split at h
      · cases h
      · obtain rfl := Option.some.inj h
        exact ⟨f, m, ((hsam f m).mp hfunc).2.1, rfl⟩

/-! ## An interface over another -/

/-- An interface of two functions. -/
def feed : ClassDecl :=
  { ClassDecl.plain "Feed" .interface with
    typeParams := [.plain "T"]
    funcs := [⟨"get", [], .param (.plain "T"), none, .method, [], false, false⟩,
      ⟨"close", [], Language.kotlin.voidType, none, .method, [], false, false⟩] }

/-- An interface that implements one of them, for arrays of its parameter. -/
def rows : ClassDecl :=
  { ClassDecl.plain "Rows" .interface with
    typeParams := [.plain "E"]
    supers := [⟨feed.ctor.apply [Language.kotlin.arrayOf (.param (.plain "E"))], none⟩]
    funcs := [⟨"close", [], Language.kotlin.voidType, some (.unresolved Language.kotlin.voidType), .method, [],
      false, true⟩] }

/-- The symbol table of the two. -/
def feedContext : Context := Context.empty.set .global ⟨[.cls feed, .cls rows], []⟩

theorem programClasses_feedContext : feedContext.programClasses = [feed, rows] := by
  rw [Context.programClasses, Context.classes_global, Context.declarations, feedContext, Context.scope_set_self]
  rfl

theorem feedContext_lineal : feedContext.Lineal := by
  have hmem : ∀ d, d ∈ feedContext.programClasses ↔ d = feed ∨ d = rows := by
    simp [programClasses_feedContext]
  have hfeed : ∀ ds, List.IsChain feedContext.IsSuper (feed :: ds) → ds = [] := by
    intro ds h
    cases h with
    | singleton => rfl
    | cons_cons h _ =>
      obtain ⟨-, sup, hsup, -⟩ := h
      cases hsup
  refine ⟨?_, ?_, ⟨fun d hd => hd, ?_⟩, ?_, ?_⟩
  · rw [Context.DistinctClasses, programClasses_feedContext]
    decide
  all_goals
    intro d hd
    rcases (hmem d).mp hd with rfl | rfl
  · decide
  · decide
  · intro sup hsup
    cases hsup
  · intro sup hsup
    obtain rfl := List.mem_singleton.mp hsup
    exact ⟨rfl, feed, (hmem _).mpr (.inl rfl), rfl⟩
  · decide
  · decide
  · intro ds h
    rw [hfeed ds h]
    exact Nat.zero_le _
  · intro ds h
    cases h with
    | singleton => exact Nat.zero_le _
    | @cons_cons _ d _ h hrest =>
      obtain ⟨hd, sup, hsup, hname⟩ := h
      obtain rfl := List.mem_singleton.mp hsup
      rcases (hmem d).mp hd with rfl | rfl
      · rw [hfeed _ hrest]
        decide
      · exact absurd hname (by decide)

/-- Rows of integers leave one function, which gives arrays of integers. -/
theorem leavesOnly_rows :
    feedContext.LeavesOnly (rows.ctor.apply [Language.kotlin.integerType])
      ⟨"get", [], .param (.plain "T"), none, .method, [], false, false⟩
      (Subst.ofArgs feed.typeParams [Language.kotlin.arrayOf Language.kotlin.integerType]) := by
  have hrows : rows ∈ feedContext.programClasses := by simp [programClasses_feedContext]
  have hfeed : feed ∈ feedContext.programClasses := by simp [programClasses_feedContext]
  refine ⟨rfl, .above hrows rfl ?_ List.mem_cons_self (.here hfeed rfl List.mem_cons_self rfl), ?_⟩
  · intro b hb
    obtain rfl := List.mem_singleton.mp hb
    decide
  · intro n g m' h habstract
    cases h with
    | here hd hname hg hn =>
      obtain rfl := feedContext_lineal.distinct.eq_of_name hd hrows hname
      obtain rfl := List.mem_singleton.mp hg
      cases habstract
    | above hd hname hnone hsup h =>
      obtain rfl := feedContext_lineal.distinct.eq_of_name hd hrows hname
      obtain rfl := List.mem_singleton.mp hsup
      cases h with
      | here hd hname hg hn =>
        obtain rfl := feedContext_lineal.distinct.eq_of_name hd hfeed hname
        rcases List.mem_cons.mp hg with rfl | hg
        · exact hn.symm
        · obtain rfl := List.mem_singleton.mp hg
          obtain ⟨b, hb, hbname⟩ : ∃ b ∈ rows.funcs, b.name = "close" := ⟨_, List.mem_cons_self, rfl⟩
          exact absurd (hbname.trans hn) (hnone b hb)
      | above hd hname _ hsup =>
        obtain rfl := feedContext_lineal.distinct.eq_of_name hd hfeed hname
        cases hsup

/-- A closure can implement rows of integers, if it gives arrays of integers. -/
theorem abstractMembers_correct_rows :
    let t := rows.ctor.apply [Language.kotlin.integerType]
    feedContext.Lineal ∧ feedContext.HasType t ∧ isSam feedContext t ∧
      ∀ l signature, samSignature? feedContext l t = some signature →
        signature = l.functionType [] (Language.kotlin.arrayOf Language.kotlin.integerType) := by
  intro t
  have hrows : rows ∈ feedContext.programClasses := by simp [programClasses_feedContext]
  have htype : feedContext.HasType t := ⟨rfl, rows, hrows, rfl⟩
  obtain ⟨-, -, hunique, -, hsam, hsignature⟩ := abstractMembers_correct feedContext_lineal htype
  refine ⟨feedContext_lineal, htype, hsam.mpr ⟨rows, hrows, rfl, rfl, rfl, _, _, leavesOnly_rows, rfl⟩, ?_⟩
  intro l signature h
  obtain ⟨f, m, hleaves, rfl⟩ := hsignature l signature h
  have hname : f.name = "get" := leavesOnly_rows.only _ _ _ hleaves.nearest hleaves.isAbstract
  obtain ⟨rfl, rfl⟩ := hunique "get" _ _ _ _ (hname ▸ hleaves.nearest) leavesOnly_rows.nearest
  rfl

end ProgramGen

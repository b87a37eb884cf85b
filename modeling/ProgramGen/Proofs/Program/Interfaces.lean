import ProgramGen.Proofs.Program.Members

/-!
# Interfaces of one function

Which functions a type leaves to be implemented depends on its class alone; the arguments of the type
only show in the signatures. So an interface that a closure can implement is one for all arguments,
and for its own parameters too.
-/

namespace ProgramGen

variable {c : Context} {t t' : Ty} {k : Nat} {view : Subst} {out xs : List (FuncDecl × Subst)}

/-! ## Functions without their views -/

/-- The functions among members, without the views that they are seen through. -/
def memberFuncs (xs : List (FuncDecl × Subst)) : List FuncDecl := xs.map (·.1)

/-- Add an inherited function; of one name the first stays. -/
def addFunc (fs : List FuncDecl) (f : FuncDecl) : List FuncDecl :=
  if fs.any (·.name == f.name) then fs else fs ++ [f]

/-- Let a class's own function take the place of what it inherits under that name. -/
def replaceFunc (fs : List FuncDecl) (f : FuncDecl) : List FuncDecl :=
  let fs := fs.filter (·.name != f.name)
  if f.isAbstract then fs ++ [f] else fs

theorem memberFuncs_addInherited :
    memberFuncs (xs.foldl addInherited out) = (memberFuncs xs).foldl addFunc (memberFuncs out) := by
  induction xs generalizing out with
  | nil => rfl
  | cons x xs ih =>
    have hadd : memberFuncs (addInherited out x) = addFunc (memberFuncs out) x.1 := by
      have hany : (memberFuncs out).any (·.name == x.1.name) = out.any (·.1.name == x.1.name) := by
        rw [memberFuncs, List.any_map]
        rfl
      unfold addInherited addFunc
      rw [hany]
      split
      · rfl
      · exact List.map_append
    rw [List.foldl_cons, ih, hadd]
    rfl

theorem memberFuncs_addOwn {fs : List FuncDecl} :
    memberFuncs (fs.foldl (addOwn view) out) = fs.foldl replaceFunc (memberFuncs out) := by
  induction fs generalizing out with
  | nil => rfl
  | cons f fs ih =>
    have hown : memberFuncs (addOwn view out f) = replaceFunc (memberFuncs out) f := by
      have hfilter : memberFuncs (out.filter (·.1.name != f.name)) =
          (memberFuncs out).filter (·.name != f.name) := by
        rw [memberFuncs, memberFuncs, List.filter_map]
        rfl
      unfold addOwn replaceFunc
      rw [← hfilter]
      dsimp only
      split
      · exact List.map_append
      · rfl
    rw [List.foldl_cons, ih, hown, List.foldl_cons]

/-! ## Implementing one function -/

/-- A closure can implement the types of an interface without fields that leaves one function, which
is not generic. -/
theorem samFunction?_eq_some {x : FuncDecl × Subst} : samFunction? c t = some x ↔
    t.isObject ∧ ∃ d, c.globalClass? t.name = some d ∧ d.kind = .interface ∧ d.fields = [] ∧
      abstractMembers c t = [x] ∧ x.1.isGeneric = false := by
  unfold samFunction?
  extract_lets isClassType
  have hclassType : isClassType = t.isObject := by cases t <;> rfl
  rw [hclassType]
  by_cases hobject : t.isObject
  · rw [if_neg (by simp [hobject])]
    cases c.globalClass? t.name with
    | none => simp
    | some d =>
      by_cases hinterface : d.kind = .interface ∧ d.fields = []
      · have hclass : (!d.isInterface || !d.fields.isEmpty) = false := by
          simpa [ClassDecl.isInterface] using hinterface
        have hright : (t.isObject ∧ ∃ d', some d = some d' ∧ d'.kind = .interface ∧ d'.fields = [] ∧
            abstractMembers c t = [x] ∧ x.1.isGeneric = false) ↔
            abstractMembers c t = [x] ∧ x.1.isGeneric = false := by
          simp [hobject, hinterface]
        rw [hright]
        dsimp only
        rw [hclass, if_neg (by simp)]
        split
        · rename_i f m hmembers
          rw [hmembers, List.singleton_inj]
          split
          · rename_i hgeneric
            refine iff_of_false (fun h => by cases h) ?_
            rintro ⟨rfl, hnot⟩
            exact absurd hgeneric (by simp [hnot])
          · rename_i hgeneric
            refine ⟨fun h => ?_, fun h => congrArg some h.1⟩
            cases h
            exact ⟨rfl, by simpa using hgeneric⟩
        · rename_i hnot
          exact iff_of_false (fun h => by cases h) fun h => hnot _ _ h.1
      · have hnot : (!d.isInterface || !d.fields.isEmpty) = true := by
          simpa [ClassDecl.isInterface, Decidable.imp_iff_not_or] using hinterface
        simp only [hnot, if_true, reduceCtorEq, false_iff]
        rintro ⟨-, d', hd', hkind, hfields, -⟩
        cases hd'
        exact hinterface ⟨hkind, hfields⟩
  · simp [hobject]

/-! ## All arguments alike -/

section Settled

variable {F : ClassDecl → Prop} (hF : c.Settled F) (hc : c.DistinctClasses)
include hF hc

/-- **What is left to be implemented does not depend on the arguments of a type.** -/
theorem memberFuncs_abstractMembersWithin (ht : ∃ d, F d ∧ d.name = t.name) (hname : t'.name = t.name) :
    memberFuncs (abstractMembersWithin c k t') = memberFuncs (abstractMembersWithin c k t) := by
  induction k generalizing t t' with
  | zero => rfl
  | succ k ih =>
    obtain ⟨d, hd, hdname⟩ := ht
    have hclass : c.globalClass? t.name = some d := hdname ▸ hc.globalClass? (hF.mem d hd)
    have hinherited : ∀ (supers : List SuperDecl) (out out' : List (FuncDecl × Subst)),
        (∀ sup ∈ supers, sup ∈ d.supers) → memberFuncs out' = memberFuncs out →
        memberFuncs (supers.foldl (fun out s =>
          (abstractMembersWithin c k (s.ty.subst t'.argMap)).foldl addInherited out) out') =
        memberFuncs (supers.foldl (fun out s =>
          (abstractMembersWithin c k (s.ty.subst t.argMap)).foldl addInherited out) out) := by
      intro supers
      induction supers with
      | nil => exact fun _ _ _ h => h
      | cons sup supers ihs =>
        intro out out' hsupers hout
        obtain ⟨hsup, hsupers⟩ := List.forall_mem_cons.mp hsupers
        obtain ⟨hobject, d', hd', hdname'⟩ := hF.supers d hd sup hsup
        have hsame : memberFuncs (abstractMembersWithin c k (sup.ty.subst t'.argMap)) =
            memberFuncs (abstractMembersWithin c k (sup.ty.subst t.argMap)) :=
          ih ⟨d', hd', by rw [hdname', Ty.name_subst_of_isObject hobject]⟩
            (by rw [Ty.name_subst_of_isObject hobject, Ty.name_subst_of_isObject hobject])
        exact ihs _ _ hsupers (by rw [memberFuncs_addInherited, memberFuncs_addInherited, hsame, hout])
    rw [abstractMembersWithin_succ hclass, abstractMembersWithin_succ (hname ▸ hclass), memberFuncs_addOwn,
      memberFuncs_addOwn]
    exact congrArg (List.foldl replaceFunc · d.funcs) (hinherited d.supers [] [] (fun _ h => h) rfl)

/-- **A closure can implement all types of a class or none.** -/
theorem isSam_of_name (ht : ∃ d, F d ∧ d.name = t.name) (hname : t'.name = t.name) (hobject : t'.isObject)
    (h : isSam c t) : isSam c t' := by
  obtain ⟨x, hx⟩ := Option.isSome_iff_exists.mp h
  obtain ⟨-, d, hd, hkind, hfields, hmembers, hgeneric⟩ := samFunction?_eq_some.mp hx
  have hone : memberFuncs (abstractMembers c t') = [x.1] := by
    have hfuncs := memberFuncs_abstractMembersWithin (k := maxInheritance + 1) hF hc ht hname
    rw [abstractMembers, hfuncs, ← abstractMembers, hmembers]
    rfl
  obtain ⟨y, hy, hfunc⟩ := List.map_eq_singleton_iff.mp hone
  exact Option.isSome_iff_exists.mpr ⟨y, samFunction?_eq_some.mpr
    ⟨hobject, d, hname ▸ hd, hkind, hfields, hy, hfunc ▸ hgeneric⟩⟩

end Settled

end ProgramGen

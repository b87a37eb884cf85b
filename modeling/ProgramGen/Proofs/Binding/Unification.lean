import ProgramGen.Proofs.Binding.Parameters
import ProgramGen.Ty.Unify

/-!
# Unification with a type that has no variables

Where one of the two types has no variables, the search goes down both at once and ends at the
parameters of the other: the types are aligned, and every parameter is paired with what stands in its
place. The pairs become bindings from left to right. A binding that is made stays, so in the end every
parameter stands for what is in all of its places, and the substitution makes the types equal.

A bound is compared under the bindings that are there when its parameter is reached. So a solution is
found if bounds mention only parameters to the left, and may be missed otherwise.
-/

namespace ProgramGen

/-! ## Alignment -/

/-- The second type is the first with parameters in some places, except that classes need only have
the same name. The list has these parameters, each with what stands in its place. -/
inductive Ty.Aligned : Ty → Ty → List (TypeParam × Ty) → Prop where
  | param {t p} : Aligned t (.param p) [(p, t)]
  | builtin {n k l b ss} : Aligned (.builtin n k l b ss) (.builtin n k l b ss) []
  | simple {n ss} : Aligned (.simple n ss) (.simple n ss) []
  | constructor {c} : Aligned (.constructor c) (.constructor c) []
  | unbounded {v} : Aligned (.wildcard v none) (.wildcard v none) []
  | wildcard {v x y L} (h : Aligned x y L) : Aligned (.wildcard v (some x)) (.wildcard v (some y)) L
  | nil {c d} (hname : c.name = d.name) : Aligned (.applied c []) (.applied d []) []
  | cons {c d x y xs ys L L'} (hx : Aligned x y L)
      (hxs : Aligned (.applied c xs) (.applied d ys) L') :
      Aligned (.applied c (x :: xs)) (.applied d (y :: ys)) (L ++ L')

/-- Bindings made one after the other: a parameter that stands for the type already, or a new one
that admits it. -/
inductive Subst.Binds : Subst → List (TypeParam × Ty) → Subst → Prop where
  | nil {m} : Binds m [] m
  | old {m p t L r} (h : m.get? p = some t) (hL : Binds m L r) : Binds m ((p, t) :: L) r
  | new {m p t L r} (h : m.get? p = none) (hp : p.Admits m t) (hL : Binds (m.insert p t) L r) :
      Binds m ((p, t) :: L) r

variable {e a t u x y : Ty} {c d : TypeCtor} {p q : TypeParam} {m m' r s : Subst} {n : String}
variable {xs ys : List Ty} {L L' : List (TypeParam × Ty)}

namespace Subst

theorem bindTo?_of_not_isVariable (ht : t.isVariable = false) :
    m.bindTo? p t = match m.get? p with
      | some u => if u = t then some m else none
      | none => match p.bound with
        | some b => if t.isSubtype (b.subst m) then some (m.insert p t) else none
        | none => some (m.insert p t) := by
  cases t with
  | param => cases ht
  | _ => rfl

/-- **One binding** to a type that is no parameter. -/
theorem bindTo?_eq_some_iff (ht : t.isVariable = false) :
    m.bindTo? p t = some r ↔
      (m.get? p = some t ∧ r = m) ∨ (m.get? p = none ∧ p.Admits m t ∧ r = m.insert p t) := by
  rw [bindTo?_of_not_isVariable ht]
  cases hp : m.get? p with
  | some u => grind
  | none =>
    cases hb : p.bound with
    | none =>
      have hadmits : p.Admits m t := TypeParam.admits_of_bound_eq_none hb
      simp [hadmits, eq_comm]
    | some b =>
      have hadmits : p.Admits m t ↔ t.isSubtype (b.subst m) := TypeParam.admits_iff_isSubtype hb
      simp only [hadmits, Option.ite_none_right_eq_some, Option.some.injEq, reduceCtorEq, false_and,
        false_or, true_and, eq_comm (a := r)]

theorem binds_singleton (ht : t.isVariable = false) :
    m.Binds [(p, t)] r ↔ m.bindTo? p t = some r := by
  rw [bindTo?_eq_some_iff ht]
  constructor
  · intro h
    cases h with
    | old h hL =>
      cases hL
      exact .inl ⟨h, rfl⟩
    | new h hp hL =>
      cases hL
      exact .inr ⟨h, hp, rfl⟩
  · rintro (⟨h, rfl⟩ | ⟨h, hp, rfl⟩)
    · exact .old h .nil
    · exact .new h hp .nil

theorem binds_append : m.Binds (L ++ L') r ↔ ∃ m', m.Binds L m' ∧ m'.Binds L' r := by
  constructor
  · intro h
    induction L generalizing m with
    | nil => exact ⟨m, .nil, h⟩
    | cons x L ih =>
      cases h with
      | old hp h =>
        obtain ⟨m', hL, hL'⟩ := ih h
        exact ⟨m', .old hp hL, hL'⟩
      | new hp ht h =>
        obtain ⟨m', hL, hL'⟩ := ih h
        exact ⟨m', .new hp ht hL, hL'⟩
  · rintro ⟨m', hL, hL'⟩
    induction hL with
    | nil => exact hL'
    | old hp _ ih => exact .old hp (ih hL')
    | new hp ht _ ih => exact .new hp ht (ih hL')

/-! ## Unification is alignment and binding -/

theorem unifyWith_nil (m : Subst) (c d : TypeCtor) :
    m.unifyWith (.applied c []) (.applied d []) = if c.name = d.name then some m else none := by
  simp [unifyWith, unifyListWith]

theorem unifyWith_cons (m : Subst) (c d : TypeCtor) (x y : Ty) (xs ys : List Ty) :
    m.unifyWith (.applied c (x :: xs)) (.applied d (y :: ys)) =
      (m.unifyWith x y).bind fun m' => m'.unifyWith (.applied c xs) (.applied d ys) := by
  simp only [unifyWith, List.length_cons, Nat.add_right_cancel_iff, unifyListWith]
  cases m.unifyWith x y with
  | none => simp
  | some m' => rfl

/-- A type without open parameters is unified with an aligned one, by the bindings in order. -/
theorem unifyWith_of_aligned (he : e.openParams = []) (h : e.Aligned a L) (hL : m.Binds L r) :
    m.unifyWith e a = some r := by
  induction h generalizing m r with
  | @param t p =>
    rw [unifyWith]
    exact (binds_singleton (Ty.isVariable_eq_false he)).mp hL
  | builtin | simple | constructor | unbounded =>
    cases hL
    simp [unifyWith]
  | wildcard _ ih =>
    rw [unifyWith, if_pos rfl]
    exact ih he hL
  | nil hname =>
    cases hL
    rw [unifyWith_nil, if_pos hname]
  | cons _ _ ihx ihxs =>
    obtain ⟨hx, hxs⟩ := List.append_eq_nil_iff.mp he
    obtain ⟨m', hL, hL'⟩ := binds_append.mp hL
    rw [unifyWith_cons, ihx hx hL]
    exact ihxs hxs hL'

/-- A type that is not taken apart is compared as it is. -/
theorem unifyWith_of_not_isApplied (he : e.isVariable = false) (happlied : e.isApplied = false)
    (hwild : e.isWildcard = false) (ha : a.isVariable = false) :
    m.unifyWith e a = if e = a then some m else none := by
  cases e with
  | param => exact nomatch he
  | applied => exact nomatch happlied
  | wildcard => exact nomatch hwild
  | _ =>
    cases a with
    | param => exact nomatch ha
    | _ => rw [unifyWith] <;> simp

theorem aligned_self (he : e.isVariable = false) (happlied : e.isApplied = false)
    (hwild : e.isWildcard = false) : e.Aligned e [] := by
  cases e with
  | builtin => exact .builtin
  | simple => exact .simple
  | constructor => exact .constructor
  | param => exact nomatch he
  | applied => exact nomatch happlied
  | wildcard => exact nomatch hwild

/-- **What unifies with a type without open parameters is aligned with it**, and the bindings are made
in the order of the places. -/
theorem aligned_of_unifyWith (he : e.openParams = []) (h : m.unifyWith e a = some r) :
    ∃ L, e.Aligned a L ∧ m.Binds L r := by
  have hparam : ∀ (t : Ty) (q : TypeParam) (m r : Subst), t.openParams = [] →
      m.unifyWith t (.param q) = some r → ∃ L, t.Aligned (.param q) L ∧ m.Binds L r := by
    intro t q m r ht h
    rw [unifyWith] at h
    exact ⟨_, .param, (binds_singleton (Ty.isVariable_eq_false ht)).mpr h⟩
  induction e using Ty.spine_induction generalizing a m r with
  | param => cases he
  | builtin | simple | constructor =>
    cases ha : a.isVariable with
    | true =>
      cases a with
      | param q => exact hparam _ q m r he h
      | _ => cases ha
    | false =>
      rw [unifyWith_of_not_isApplied rfl rfl rfl ha] at h
      obtain ⟨rfl, hm⟩ := Option.ite_none_right_eq_some.mp h
      cases hm
      exact ⟨[], aligned_self rfl rfl rfl, .nil⟩
  | wildcard v x ih =>
    cases a with
    | param q => exact hparam _ q m r he h
    | wildcard w y =>
      cases x with
      | none =>
        cases y with
        | none =>
          simp only [unifyWith, Option.ite_none_right_eq_some, Option.some.injEq] at h
          obtain ⟨rfl, rfl⟩ := h
          exact ⟨[], .unbounded, .nil⟩
        | some y => simp [unifyWith] at h
      | some x =>
        cases y with
        | none => simp [unifyWith] at h
        | some y =>
          rw [unifyWith] at h
          obtain ⟨rfl, hxy⟩ := Option.ite_none_right_eq_some.mp h
          obtain ⟨L, hL, hbinds⟩ := ih x rfl he hxy
          exact ⟨L, .wildcard hL, hbinds⟩
    | _ => simp [unifyWith] at h
  | nil c =>
    cases a with
    | param q => exact hparam _ q m r he h
    | applied d ys =>
      cases ys with
      | nil =>
        rw [unifyWith_nil] at h
        obtain ⟨hname, h⟩ := Option.ite_none_right_eq_some.mp h
        cases h
        exact ⟨[], .nil hname, .nil⟩
      | cons y ys => simp [unifyWith] at h
    | _ => simp [unifyWith] at h
  | cons c x xs ihx ihxs =>
    cases a with
    | param q => exact hparam _ q m r he h
    | applied d ys =>
      cases ys with
      | nil => simp [unifyWith] at h
      | cons y ys =>
        obtain ⟨hx, hxs⟩ := List.append_eq_nil_iff.mp he
        rw [unifyWith_cons] at h
        obtain ⟨m', hm', h⟩ := Option.bind_eq_some_iff.mp h
        obtain ⟨L, hL, hbinds⟩ := ihx hx hm'
        obtain ⟨L', hL', hbinds'⟩ := ihxs hxs h
        exact ⟨L ++ L', .cons hL hL', binds_append.mpr ⟨m', hbinds, hbinds'⟩⟩
    | _ => simp [unifyWith] at h

/-- A type is unified with itself by binding nothing. -/
theorem unifyWith_self (m : Subst) (t : Ty) : m.unifyWith t t = some m := by
  induction t using Ty.spine_induction generalizing m with
  | builtin | simple | constructor => rw [unifyWith_of_not_isApplied rfl rfl rfl rfl, if_pos rfl]
  | param p => simp [unifyWith, bindTo?]
  | wildcard v b ih =>
    cases b with
    | none => simp [unifyWith]
    | some b => rw [unifyWith, if_pos rfl, ih b rfl]
  | nil c => rw [unifyWith_nil, if_pos rfl]
  | cons c x xs ihx ihxs =>
    rw [unifyWith_cons, ihx]
    exact ihxs m

/-! ## What is bound -/

namespace Binds

theorem grows (h : m.Binds L r) : r.Extends m := by
  induction h with
  | nil => exact .refl _
  | old _ _ ih => exact ih
  | new h _ _ ih => exact ih.trans (insert_extends h)

/-- In the end every parameter stands for what it was bound to. -/
theorem get?_eq_some (h : m.Binds L r) : ∀ x ∈ L, r.get? x.1 = some x.2 := by
  induction h with
  | nil => simp
  | old h hL ih => exact List.forall_mem_cons.mpr ⟨hL.grows _ _ h, ih⟩
  | new h _ hL ih =>
    exact List.forall_mem_cons.mpr ⟨hL.grows _ _ lookup_insert_self, ih⟩

/-- The names that are bound in the end. -/
theorem exists_lookup_iff (h : m.Binds L r) :
    (∃ u, r.lookup n = some u) ↔ (∃ u, m.lookup n = some u) ∨ ∃ x ∈ L, x.1.name = n := by
  induction h with
  | nil => simp
  | @old m p t L r h _ ih =>
    have hp : p.name = n → ∃ u, m.lookup n = some u := fun hn => ⟨t, hn ▸ h⟩
    simp only [ih, List.mem_cons, exists_eq_or_imp]
    rw [← or_assoc, or_iff_left_of_imp (b := p.name = n) hp]
  | @new m p t L r h _ _ ih =>
    have hp : (∃ u, (m.insert p t).lookup n = some u) ↔ p.name = n ∨ ∃ u, m.lookup n = some u := by
      rw [lookup_insert]
      by_cases hn : p.name = n <;> simp [hn]
    simp only [ih, hp, List.mem_cons, exists_eq_or_imp]
    rw [or_assoc, or_left_comm]

/-- A new entry is one of the list, and its parameter admitted it under the bindings before it. -/
theorem mem_entries (h : m.Binds L r) {x : TypeParam × Ty} (hx : x ∈ r.entries) :
    x ∈ m.entries ∨ x ∈ L ∧ ∃ m', r.Extends m' ∧ x.1.Admits m' x.2 := by
  induction h with
  | nil => exact .inl hx
  | old _ _ ih => exact (ih hx).imp_right fun ⟨hL, h⟩ => ⟨List.mem_cons_of_mem _ hL, h⟩
  | @new m p t L r h hp hL ih =>
    rcases ih hx with hm | ⟨hx, h⟩
    · rw [entries_insert h] at hm
      rcases List.mem_append.mp hm with hm | hm
      · exact .inl hm
      · rw [List.mem_singleton.mp hm]
        exact .inr ⟨List.mem_cons_self, m, hL.grows.trans (insert_extends h), hp⟩
    · exact .inr ⟨List.mem_cons_of_mem _ hx, h⟩

end Binds

/-- **Bindings that a solution agrees with are made**, if every bound speaks of parameters that are
bound already. -/
theorem exists_binds {before : List String} (hs : s.Extends m) (hL : ∀ x ∈ L, s.get? x.1 = some x.2)
    (hadmits : ∀ x ∈ L, x.1.Admits s x.2) (hback : BoundsLookBack before (L.map (·.1)))
    (hbefore : ∀ n ∈ before, ∃ u, m.lookup n = some u) : ∃ r, m.Binds L r ∧ s.Extends r := by
  induction L generalizing m before with
  | nil => exact ⟨m, .nil, hs⟩
  | cons x L ih =>
    obtain ⟨p, t⟩ := x
    obtain ⟨hp, hback⟩ := hback
    obtain ⟨hpt, htail⟩ := List.forall_mem_cons.mp hL
    obtain ⟨hadmits, hadmitsL⟩ := List.forall_mem_cons.mp hadmits
    cases hget : m.get? p with
    | some u =>
      obtain rfl : u = t := Option.some.inj ((hs _ _ hget).symm.trans hpt)
      obtain ⟨r, hr, hsr⟩ := ih hs htail hadmitsL hback
        ((Extends.refl m).exists_lookup_cons hget hbefore)
      exact ⟨r, .old hget hr, hsr⟩
    | none =>
      have hadmitsm : p.Admits m t :=
        (TypeParam.admits_of_extends hs fun b hb q hq => hbefore _ (hp b hb q hq)).mp hadmits
      have hsm : s.Extends (m.insert p t) := by
        intro n u hn
        rw [lookup_insert] at hn
        split at hn
        · subst n
          rw [← hn]
          exact hpt
        · exact hs n u hn
      obtain ⟨r, hr, hsr⟩ := ih hsm htail hadmitsL hback
        ((insert_extends hget).exists_lookup_cons lookup_insert_self hbefore)
      exact ⟨r, .new hget hadmitsm hr, hsr⟩

end Subst

/-! ## Classes -/

mutual

/-- The generic classes that a type applies to arguments. -/
def Ty.ctors : Ty → List TypeCtor
  | .applied c args => c :: Ty.ctorsList args
  | .wildcard _ (some b) => b.ctors
  | .wildcard _ none => []
  | .builtin .. => []
  | .simple .. => []
  | .param _ => []
  | .constructor _ => []

def Ty.ctorsList : List Ty → List TypeCtor
  | [] => []
  | t :: ts => t.ctors ++ Ty.ctorsList ts

end

/-- Classes of the same name in the two types are the same class. -/
def Ty.SharesClasses (e a : Ty) : Prop := ∀ c ∈ e.ctors, ∀ d ∈ a.ctors, c.name = d.name → c = d

instance (e a : Ty) : Decidable (e.SharesClasses a) :=
  inferInstanceAs (Decidable (∀ c ∈ e.ctors, ∀ d ∈ a.ctors, c.name = d.name → c = d))

theorem Ty.mem_ctors_cons {k : TypeCtor} :
    k ∈ (Ty.applied c (x :: xs)).ctors ↔ k ∈ x.ctors ∨ k ∈ (Ty.applied c xs).ctors := by
  simp only [ctors, ctorsList, List.mem_cons, List.mem_append]
  exact or_left_comm

namespace Ty.Aligned

theorem openParams_eq (h : e.Aligned a L) : a.openParams = L.map (·.1) := by
  induction h with
  | cons _ _ ihx ihxs => rw [openParams_applied_cons, ihx, ihxs, List.map_append]
  | wildcard _ ih => exact ih
  | _ => rfl

/-- **What the parameters stand for makes the two types equal.** -/
theorem subst_eq (h : e.Aligned a L) (hc : e.SharesClasses a) (hL : ∀ x ∈ L, r.get? x.1 = some x.2) :
    a.subst r = e := by
  induction h with
  | @param t p =>
    obtain ⟨n, v, b⟩ := p
    have hp : r.lookup n = some t := hL _ List.mem_cons_self
    simp only [Ty.subst, hp]
  | builtin | simple | constructor => simp only [Ty.subst]
  | unbounded => rfl
  | wildcard _ ih => simp only [Ty.subst, substBound, ih hc hL]
  | nil hname =>
    obtain rfl := hc _ (by simp [ctors]) _ (by simp [ctors]) hname
    rfl
  | cons _ _ ihx ihxs =>
    obtain ⟨hLx, hLxs⟩ := List.forall_mem_append.mp hL
    have hx := ihx (fun c hcx d hdy => hc c (mem_ctors_cons.mpr (.inl hcx)) d
      (mem_ctors_cons.mpr (.inl hdy))) hLx
    have hxs := ihxs (fun c hcx d hdy => hc c (mem_ctors_cons.mpr (.inr hcx)) d
      (mem_ctors_cons.mpr (.inr hdy))) hLxs
    simp only [Ty.subst, Ty.applied.injEq] at hxs
    simp only [Ty.subst, substList, hx, hxs]

end Ty.Aligned

/-- A type that a substitution makes equal to one without open parameters is aligned with it. -/
theorem Ty.exists_aligned (he : (a.subst s).openParams = []) :
    ∃ L, (a.subst s).Aligned a L ∧ ∀ x ∈ L, s.get? x.1 = some x.2 := by
  induction a using Ty.spine_induction with
  | builtin =>
    rw [Ty.subst]
    exact ⟨[], .builtin, by simp⟩
  | simple =>
    rw [Ty.subst]
    exact ⟨[], .simple, by simp⟩
  | constructor =>
    rw [Ty.subst]
    exact ⟨[], .constructor, by simp⟩
  | param p =>
    obtain ⟨n, v, b⟩ := p
    rw [Ty.subst] at he ⊢
    split at he
    · rename_i t ht
      exact ⟨[(⟨n, v, b⟩, t)], .param, by simpa [Subst.get?] using ht⟩
    · cases he
  | wildcard v b ih =>
    cases b with
    | none => exact ⟨[], .unbounded, by simp⟩
    | some b =>
      obtain ⟨L, haligned, hL⟩ := ih b rfl he
      exact ⟨L, .wildcard haligned, hL⟩
  | nil c => exact ⟨[], .nil rfl, by simp⟩
  | cons c x xs ihx ihxs =>
    obtain ⟨hx, hxs⟩ := List.append_eq_nil_iff.mp he
    obtain ⟨L, haligned, hL⟩ := ihx hx
    obtain ⟨L', haligned', hL'⟩ := ihxs hxs
    exact ⟨L ++ L', .cons haligned haligned', List.forall_mem_append.mpr ⟨hL, hL'⟩⟩

/-! ## Unification -/

/-- **Unification with a type without variables explains it.** The bindings make the types equal, they
are for the open parameters, and each is within its bound if that has no variables. And a type needs no
bindings to be equal to itself. -/
theorem Ty.unify_sound :
    (∀ (e a : Ty) (m : Subst), e.hasVariables = false → e.SharesClasses a → e.unify? a = some m →
      a.subst m = e ∧
      (∀ n, (∃ t, m.lookup n = some t) ↔ ∃ p ∈ a.openParams, p.name = n) ∧
      ∀ x ∈ m.entries, x.1 ∈ a.openParams ∧
        ∀ b ∈ x.1.bound, b.hasVariables = false → x.2.isSubtype b) ∧
    ∀ t : Ty, t.unify? t = some ∅ := by
  refine ⟨fun e a m he hc h => ?_, Subst.unifyWith_self ∅⟩
  obtain ⟨L, haligned, hbinds⟩ := Subst.aligned_of_unifyWith (openParams_eq_nil he) h
  refine ⟨haligned.subst_eq hc hbinds.get?_eq_some, fun n => ?_, fun x hx => ?_⟩
  · rw [hbinds.exists_lookup_iff, haligned.openParams_eq]
    simp
  · obtain hx | ⟨hx, m', -, hadmits⟩ := hbinds.mem_entries hx
    · cases hx
    · refine ⟨haligned.openParams_eq ▸ List.mem_map_of_mem hx, fun b hb hground => ?_⟩
      have hsub := hadmits b hb
      rwa [subst_of_openParams_eq_nil (openParams_eq_nil hground)] at hsub

/-- A function on integers explains a function whose parameter and result are of one type of numbers. -/
theorem Ty.unify_sound_function :
    let integer := Language.kotlin.integerType
    let p : TypeParam := ⟨"A", .invariant, some Language.kotlin.numberType⟩
    let e := Language.kotlin.functionType [integer] integer
    let a := Language.kotlin.functionType [.param p] (.param p)
    e.hasVariables = false ∧ e.SharesClasses a ∧ e.unify? a = some ⟨[(p, integer)]⟩ ∧
      a.subst ⟨[(p, integer)]⟩ = e ∧
      (∀ n, (∃ t, (⟨[(p, integer)]⟩ : Subst).lookup n = some t) ↔ ∃ q ∈ a.openParams, q.name = n) ∧
      integer.isSubtype Language.kotlin.numberType := by
  intro integer p e a
  have he : e.hasVariables = false := by decide +kernel
  have hc : e.SharesClasses a := by decide +kernel
  have hunify : e.unify? a = some ⟨[(p, integer)]⟩ := by decide +kernel
  obtain ⟨hsubst, hnames, hentries⟩ := unify_sound.1 e a _ he hc hunify
  have hbound := (hentries (p, integer) List.mem_cons_self).2 _ rfl (by decide +kernel)
  exact ⟨he, hc, hunify, hsubst, hnames, hbound⟩

/-- **Unification with a type without variables finds a solution**, if the bounds of the open
parameters mention only open parameters to their left. What it binds, every solution binds. -/
theorem Ty.unify_complete (he : e.hasVariables = false) (hs : a.subst s = e)
    (hadmits : ∀ p ∈ a.openParams, ∀ t, s.get? p = some t → p.Admits s t)
    (hback : BoundsLookBack [] a.openParams) : ∃ m, e.unify? a = some m ∧ s.Extends m := by
  subst hs
  have hground := openParams_eq_nil he
  obtain ⟨L, haligned, hL⟩ := exists_aligned hground
  rw [haligned.openParams_eq] at hback hadmits
  obtain ⟨m, hbinds, hsm⟩ := Subst.exists_binds s.extends_empty hL
    (fun x hx => hadmits x.1 (List.mem_map_of_mem hx) x.2 (hL x hx)) hback (by simp)
  exact ⟨m, Subst.unifyWith_of_aligned hground haligned hbinds, hsm⟩

/-- The order of the parameters matters: a bound that mentions a parameter to the right is compared
before that stands for anything. -/
example :
    let integer := Language.kotlin.integerType
    let number := Language.kotlin.numberType
    let u := TypeParam.plain "U"
    let t : TypeParam := ⟨"T", .invariant, some (.param u)⟩
    let pair : TypeCtor := ⟨"Pair", [.plain "K", .plain "V"], [], false⟩
    (pair.apply [number, integer]).unify? (pair.apply [.param u, .param t]) =
        some ⟨[(u, number), (t, integer)]⟩ ∧
      (pair.apply [integer, number]).unify? (pair.apply [.param t, .param u]) = none := by
  decide +kernel

end ProgramGen

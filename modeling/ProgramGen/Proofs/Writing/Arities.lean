import ProgramGen.Proofs.Writing.Uses
import ProgramGen.Proofs.Subtyping.Catalog

/-!
# The arities of types in Java

The emitter notes the numbers of parameters of the function types that it writes. In a type that is built
from what the language and a program have these are the function types that stand in it; and where one
stands in a type, the name of its interface is in the text of the type.
-/

namespace ProgramGen

open Java (Use)

/-- The first type is the second or stands in it, as an argument or as the bound of a projection. -/
inductive Ty.PartOf (s : Ty) : Ty → Prop where
  | self : PartOf s s
  | argument {c : TypeCtor} {args : List Ty} {t : Ty} (ht : t ∈ args) (h : PartOf s t) : PartOf s (.applied c args)
  | bound {v : Variance} {b : Ty} (h : PartOf s b) : PartOf s (.wildcard v (some b))

namespace Java

/-- The type is one of functions with `n` parameters. -/
def IsFunction (n : Nat) (t : Ty) : Prop :=
  ∃ params ret, params.length = n ∧ t = Language.java.functionType params ret

/-- In the type stands one of functions with `n` parameters. -/
def Names (n : Nat) (t : Ty) : Prop := ∃ s : Ty, IsFunction n s ∧ s.PartOf t

/-- A generic class with arguments that it can have: a class of a program, or one of the language. The
number of parameters of a function fits in a machine word. -/
inductive Applies : TypeCtor → List Ty → Prop where
  | declared {c args} (h : c.builtin = false) : Applies c args
  | array {t} : Applies Language.java.arrayCtor [t]
  | list {t} : Applies Language.java.arrayListCtor [t]
  | iterator {t} : Applies Language.java.iteratorCtor [t]
  | function {params ret} (h : params.length < UInt64.size) :
      Applies (Language.java.functionCtor params.length) (params ++ [ret])

/-- A type built from what the language and a program have, in which no generic class lacks its arguments. -/
inductive Built : Ty → Prop where
  | builtin {n k l p ss} : Built (.builtin n k l p ss)
  | simple {n ss} : Built (.simple n ss)
  | param {p} : Built (.param p)
  | wildcard {v b} (hb : ∀ t ∈ b, Built t) : Built (.wildcard v b)
  | applied {c args} (hc : Applies c args) (hargs : ∀ t ∈ args, Built t) : Built (.applied c args)

/-- A function type is built of built types. -/
theorem Built.function {params : List Ty} {ret : Ty} (hlength : params.length < UInt64.size)
    (hparams : ∀ t ∈ params, Built t) (hret : Built ret) : Built (Language.java.functionType params ret) :=
  .applied (.function hlength) fun t ht => by
    rcases List.mem_append.mp ht with ht | ht
    · exact hparams t ht
    · exact List.mem_singleton.mp ht ▸ hret

variable {c : TypeCtor} {args : List Ty} {t u : Ty} {k n : Nat} {ns ms : List Nat}

/-! ## Noted arities -/

theorem mem_insertArity : k ∈ insertArity n ms ↔ k = n ∨ k ∈ ms := by
  induction ms with
  | nil => simp [insertArity]
  | cons m ms ih =>
    rw [insertArity]
    split
    · exact List.mem_cons
    · split
      · rename_i heq
        rw [← heq, List.mem_cons, ← or_assoc, or_self]
      · rw [List.mem_cons, ih, List.mem_cons]
        exact or_left_comm

theorem ascending_insertArity (h : ms.Pairwise (· < ·)) : (insertArity n ms).Pairwise (· < ·) := by
  induction ms with
  | nil => exact List.pairwise_singleton _ _
  | cons m ms ih =>
    obtain ⟨hm, hms⟩ := List.pairwise_cons.mp h
    rw [insertArity]
    split
    · rename_i hlt
      refine List.pairwise_cons.mpr ⟨fun k hk => ?_, h⟩
      rcases List.mem_cons.mp hk with rfl | hk
      · exact hlt
      · exact Nat.lt_trans hlt (hm k hk)
    · split
      · exact h
      · refine List.pairwise_cons.mpr ⟨fun k hk => ?_, ih hms⟩
        rcases mem_insertArity.mp hk with rfl | hk
        · omega
        · exact hm k hk

theorem mem_foldl_insertArity : k ∈ ns.foldl (fun out n => insertArity n out) ms ↔ k ∈ ms ∨ k ∈ ns := by
  induction ns generalizing ms with
  | nil => simp
  | cons n ns ih =>
    rw [List.foldl_cons, ih, mem_insertArity, List.mem_cons, or_comm (a := k = n), or_assoc]

theorem ascending_foldl_insertArity (h : ms.Pairwise (· < ·)) :
    (ns.foldl (fun out n => insertArity n out) ms).Pairwise (· < ·) := by
  induction ns generalizing ms with
  | nil => exact h
  | cons n ns ih => exact ih (ascending_insertArity h)

/-! ## Arities of types -/

theorem aritiesOf_eq (ts : List Ty) : aritiesOf ts = ts.flatMap arities := by
  induction ts with
  | nil => rfl
  | cons t ts ih => rw [aritiesOf, ih, List.flatMap_cons]

/-- A type of the language itself needs no function interface. -/
theorem arities_of_builtinKind (h : t.builtinKind?.isSome) : arities t = [] := by
  cases t with
  | builtin => rfl
  | _ => cases h

theorem arities_of_isVoid (h : t.isVoid) : arities t = [] := by
  refine arities_of_builtinKind ?_
  rw [Ty.isVoid, beq_iff_eq] at h
  rw [h]
  rfl

theorem isArray_of_isFunction {d : TypeCtor} (h : d.isFunction) : isArray d = false := by
  refine Bool.eq_false_iff.mpr fun harray => ?_
  simp only [isArray, Bool.and_eq_true, beq_iff_eq] at harray
  simp [TypeCtor.isFunction, harray, functionArity?] at h

/-- What the type of a parameter of a function type needs, the function type needs. -/
theorem arities_of_functionSignature? {types : List Ty} {ret : Ty} (h : t.functionSignature? = some (types, ret))
    (hu : u ∈ types) : arities u ⊆ arities t := by
  cases t with
  | applied d args =>
    simp only [Ty.functionSignature?, Option.ite_none_right_eq_some, Option.map_eq_some_iff] at h
    obtain ⟨hfunction, _, -, heq⟩ := h
    cases heq
    obtain _ | ⟨a, as⟩ := args
    · cases hu
    intro n hn
    have hmem : n ∈ (a :: as).flatMap arities := List.mem_flatMap.mpr ⟨u, List.dropLast_subset _ hu, hn⟩
    rw [arities, isArray_of_isFunction hfunction, aritiesOf_eq]
    exact List.mem_append_right _ hmem
  | _ => cases h

mutual

/-- Bounds in the place of projections need what the projections need. -/
theorem arities_withoutWildcards : ∀ t : Ty, arities (t.withoutWildcards Language.java.anyType) = arities t
  | .wildcard _ none => rfl
  | .wildcard v (some b) => by
    rw [Ty.withoutWildcards, arities_withoutWildcards b]
    cases v <;> rw [arities]
  | .applied d [] => rfl
  | .applied d (a :: as) => by
    have hlength : (Ty.withoutWildcardsList as Language.java.anyType).length = as.length := by
      rw [Ty.withoutWildcardsList_eq, List.length_map]
    rw [Ty.withoutWildcards, Ty.withoutWildcardsList, arities, arities, arities_withoutWildcards a,
      aritiesOf_withoutWildcards as]
    simp only [ownArity, List.length_cons, hlength]
  | .builtin .. | .simple .. | .param _ | .constructor _ => rfl

theorem aritiesOf_withoutWildcards :
    ∀ ts : List Ty, aritiesOf (Ty.withoutWildcardsList ts Language.java.anyType) = aritiesOf ts
  | [] => rfl
  | t :: ts => by
    rw [Ty.withoutWildcardsList, aritiesOf, aritiesOf, arities_withoutWildcards t, aritiesOf_withoutWildcards ts]

end

/-- Without its arguments a type needs no more than with them. -/
theorem arities_erased : (Use.erased t).arities ⊆ (Use.type t).arities := by
  cases t with
  | applied d args =>
    rw [Use.arities, Use.arities]
    split
    · exact List.Subset.refl _
    · obtain _ | ⟨a, as⟩ := args
      · exact List.Subset.refl _
      · exact List.subset_append_left _ _
  | _ => exact List.Subset.refl _

/-! ## Function types in types -/

theorem IsFunction.eq (h : IsFunction n (.applied c args)) :
    c = Language.java.functionCtor n ∧ args.length = n + 1 := by
  obtain ⟨params, ret, rfl, heq⟩ := h
  obtain ⟨rfl, rfl⟩ := Ty.applied.inj heq
  exact ⟨rfl, List.length_append⟩

theorem names_applied : Names n (.applied c args) ↔ IsFunction n (.applied c args) ∨ ∃ t ∈ args, Names n t := by
  constructor
  · rintro ⟨s, hs, hpart⟩
    cases hpart with
    | self => exact .inl hs
    | argument ht h => exact .inr ⟨_, ht, s, hs, h⟩
  · rintro (h | ⟨t, ht, s, hs, hpart⟩)
    · exact ⟨_, h, .self⟩
    · exact ⟨s, hs, .argument ht hpart⟩

/-- Any other type is no function type itself. -/
theorem names_iff_of_not_isApplied (ht : t.isApplied = false) :
    Names n t ↔ ∃ v b, t = .wildcard v (some b) ∧ Names n b := by
  constructor
  · rintro ⟨s, hs, hpart⟩
    cases hpart with
    | self =>
      obtain ⟨_, _, -, rfl⟩ := hs
      cases ht
    | argument => cases ht
    | bound h => exact ⟨_, _, rfl, s, hs, h⟩
  · rintro ⟨v, b, rfl, s, hs, hpart⟩
    exact ⟨s, hs, .bound hpart⟩

/-- The name of a class of function types says how many parameters they have. -/
theorem functionArity?_functionCtor (h : n < UInt64.size) :
    functionArity? (Language.java.functionCtor n).name = some n := by
  have hname : (Language.java.functionCtor n).name.toList =
      'F' :: 'u' :: 'n' :: 'c' :: 't' :: 'i' :: 'o' :: 'n' :: Nat.toDigits 10 n := by
    show ("Function" ++ toString n).toList = _
    rw [String.toList_append, Nat.toString_eq_ofList_toDigits]
    exact congrArg ("Function".toList ++ ·) String.toList_ofList
  have hdigits : ∀ d ∈ Nat.toDigits 10 n, d.isDigit := fun d hd =>
    Nat.isDigit_of_mem_toDigits (by decide) (by decide) hd
  have hplus : ∀ ds, Nat.toDigits 10 n ≠ '+' :: ds := fun ds heq =>
    absurd (hdigits '+' (heq ▸ List.mem_cons_self)) (by decide)
  have hvalue : (Nat.toDigits 10 n).foldl (fun n d => 10 * n + (d.toNat - 48)) 0 = n :=
    Nat.ofDigitChars_eq_foldl.symm.trans Nat.ofDigitChars_ten_toDigits
  have hall : (Nat.toDigits 10 n).all Char.isDigit := List.all_eq_true.mpr hdigits
  have hne : (Nat.toDigits 10 n).isEmpty = false := by simp [Nat.toDigits_ne_nil]
  unfold functionArity?
  rw [hname]
  split
  · rename_i rest heq
    obtain rfl : Nat.toDigits 10 n = rest := by simpa only [List.cons.injEq, true_and] using heq
    dsimp only
    split
    · exact absurd ‹_› (hplus _)
    · rw [hne, hall, hvalue, if_pos h]
      rfl
  · rename_i hother
    exact absurd rfl (hother _)

theorem isFunction_functionCtor (h : n < UInt64.size) : (Language.java.functionCtor n).isFunction := by
  rw [TypeCtor.isFunction, functionArity?_functionCtor h]
  rfl

theorem Applies.mem_ownArity (h : Applies c args) : n ∈ ownArity c args ↔ IsFunction n (.applied c args) := by
  have hother : c.isFunction = false → (∀ m, c ≠ Language.java.functionCtor m) →
      (n ∈ ownArity c args ↔ IsFunction n (.applied c args)) := fun hc hne => by
    rw [ownArity, hc]
    exact ⟨fun hn => absurd hn List.not_mem_nil, fun hn => absurd hn.eq.1 (hne n)⟩
  have hname : ∀ {d : TypeCtor}, d.name.toList.head? ≠ some 'F' → ∀ m, d ≠ Language.java.functionCtor m :=
    fun hd m heq => Language.java.functionCtor_name_ne m hd (congrArg TypeCtor.name heq).symm
  cases h with
  | declared hc => exact hother (by simp [TypeCtor.isFunction, hc]) fun m heq => by rw [heq] at hc; cases hc
  | array | list | iterator => exact hother (by decide) (hname (by decide))
  | @function params ret hlength =>
    rw [ownArity, isFunction_functionCtor hlength, if_pos rfl, List.mem_singleton, List.length_append]
    constructor
    · rintro rfl
      exact ⟨params, ret, rfl, rfl⟩
    · intro hn
      obtain ⟨-, hlength⟩ := hn.eq
      rw [List.length_append] at hlength
      exact (Nat.succ.inj hlength).symm

/-- An array has one argument. -/
theorem Applies.eq_singleton (h : Applies c args) (harray : isArray c) : ∃ t, args = [t] := by
  cases h with
  | declared hc => simp [isArray, hc] at harray
  | array | list | iterator => exact ⟨_, rfl⟩
  | function hlength => rw [isArray_of_isFunction (isFunction_functionCtor hlength)] at harray; cases harray

/-- Of the arguments of an array only the first is written, but there is only one. -/
theorem Applies.arities_eq (h : Applies c args) :
    arities (.applied c args) = ownArity c args ++ args.flatMap arities := by
  obtain _ | ⟨a, as⟩ := args
  · exact (List.append_nil _).symm
  rw [arities, aritiesOf_eq, List.flatMap_cons]
  split
  · rename_i harray
    obtain ⟨_, hargs⟩ := h.eq_singleton harray
    obtain ⟨-, rfl⟩ := List.cons.inj hargs
    rfl
  · rfl

/-- **The emitter notes the function types that stand in a type.** -/
theorem Built.mem_arities (h : Built t) : n ∈ arities t ↔ Names n t := by
  induction h with
  | applied hc hargs ih =>
    rw [hc.arities_eq, List.mem_append, hc.mem_ownArity, names_applied, List.mem_flatMap]
    exact or_congr_right (exists_congr fun t => and_congr_right fun ht => ih t ht)
  | @wildcard v b hb ih =>
    rw [names_iff_of_not_isApplied rfl]
    cases b with
    | none =>
      refine ⟨fun hn => absurd hn List.not_mem_nil, ?_⟩
      rintro ⟨_, _, heq, -⟩
      cases heq
    | some b =>
      rw [show arities (.wildcard v (some b)) = arities b by cases v <;> rw [arities], ih b rfl]
      refine ⟨fun hn => ⟨v, b, rfl, hn⟩, ?_⟩
      rintro ⟨_, _, heq, hn⟩
      cases heq
      exact hn
  | builtin | simple | param =>
    rw [names_iff_of_not_isApplied rfl]
    refine ⟨fun hn => absurd hn List.not_mem_nil, ?_⟩
    rintro ⟨_, _, heq, -⟩
    cases heq

/-- Functions of one number that give back arrays of functions without parameters. -/
example : arities (Language.java.functionType [Language.java.integerType]
    (Language.java.arrayOf (Language.java.functionType [] Language.java.stringType))) = [1, 0] := rfl

/-! ## Function types in texts -/

/-- One text stands in another. -/
def Inside (w s : String) : Prop := ∃ front back, s = front ++ w ++ back

variable {w s : String} {texts exact : List String}

theorem Inside.extend (h : Inside w s) (front back : String) : Inside w (front ++ s ++ back) := by
  obtain ⟨front', back', rfl⟩ := h
  exact ⟨front ++ front', back' ++ back, by simp only [String.append_assoc]⟩

theorem inside_commas (hs : s ∈ texts) (h : Inside w s) : Inside w (commas texts) := by
  unfold commas
  induction texts with
  | nil => cases hs
  | cons u us ih =>
    cases us with
    | nil =>
      rw [String.intercalate_singleton]
      exact List.mem_singleton.mp hs ▸ h
    | cons v vs =>
      rw [String.intercalate_cons_cons]
      rcases List.mem_cons.mp hs with rfl | hs
      · have hfirst := h.extend "" (", " ++ ", ".intercalate (v :: vs))
        rwa [String.empty_append, ← String.append_assoc] at hfirst
      · have hrest := (ih hs).extend (u ++ ", ") ""
        rwa [String.append_empty] at hrest

theorem appliedText_of_not_isArray (h : isArray c = false) :
    appliedText c texts exact = c.name ++ "<" ++ commas texts ++ ">" := by
  unfold appliedText
  rw [h]

/-- What is no type of the language itself has no other text as an argument. -/
theorem boxedText_of_not_builtin (h : t.builtinKind? = none) : boxedText t s = s := by
  cases t with
  | builtin => cases h
  | _ => rfl

theorem argTexts_eq (ts : List Ty) : argTexts ts = ts.map fun t => boxedText t (typeText t) := by
  induction ts with
  | nil => rfl
  | cons t ts ih => rw [argTexts, ih, List.map_cons]

theorem exactTexts_eq (ts : List Ty) : exactTexts ts = ts.map exactText := by
  induction ts with
  | nil => rfl
  | cons t ts ih => rw [exactTexts, ih, List.map_cons]

/-- **A function type that stands in a type is in its text**, by the name of its interface. -/
theorem Names.inside (h : Names n t) (ht : Built t) :
    Inside ("Function" ++ toString n ++ "<") (typeText t) ∧
      Inside ("Function" ++ toString n ++ "<") (exactText t) := by
  obtain ⟨_, ⟨params, ret, rfl, rfl⟩, hpart⟩ := h
  have hkind : ∀ {t : Ty}, (Language.java.functionType params ret).PartOf t → t.builtinKind? = none := fun h => by
    cases h <;> rfl
  induction hpart with
  | self =>
    have harray : isArray (Language.java.functionCtor params.length) = false := by
      have hname := Language.java.functionCtor_name_ne params.length (n := "Array") (by decide)
      simp [isArray, hname]
    rw [Language.functionType, TypeCtor.apply, typeText, exactText, appliedText_of_not_isArray harray,
      appliedText_of_not_isArray harray]
    exact ⟨⟨"", _, String.append_assoc⟩, ⟨"", _, String.append_assoc⟩⟩
  | @argument c args t hmem hpart ih =>
    cases ht with
    | applied hc hargs =>
      obtain ⟨htype, hexact⟩ := ih (hargs t hmem)
      rw [typeText, exactText]
      cases harray : isArray c with
      | true =>
        -- The text of an array is that of its elements.
        obtain ⟨_, rfl⟩ := hc.eq_singleton harray
        obtain rfl := List.mem_singleton.mp hmem
        have helem := hexact.extend "" "[]"
        rw [String.empty_append] at helem
        unfold appliedText
        rw [harray]
        exact ⟨helem, helem⟩
      | false =>
        have hnames : ∀ {texts : List String}, exactText t ∈ texts ∨ typeText t ∈ texts →
            Inside ("Function" ++ toString params.length ++ "<") (c.name ++ "<" ++ commas texts ++ ">") := fun h => by
          rcases h with h | h
          · exact (inside_commas h hexact).extend _ _
          · exact (inside_commas h htype).extend _ _
        rw [appliedText_of_not_isArray harray, appliedText_of_not_isArray harray, argTexts_eq, exactTexts_eq]
        refine ⟨hnames (.inr (List.mem_map.mpr ⟨t, hmem, boxedText_of_not_builtin (hkind hpart)⟩)),
          hnames (.inl (List.mem_map_of_mem hmem))⟩
  | @bound v b hpart ih =>
    cases ht with
    | wildcard hb =>
      obtain ⟨htype, hexact⟩ := ih (hb b rfl)
      have hboxed : boxedText b (typeText b) = typeText b := boxedText_of_not_builtin (hkind hpart)
      have hfront : ∃ front, typeText (.wildcard v (some b)) = front ++ boxedText b (typeText b) := by
        cases v <;> exact ⟨_, rfl⟩
      obtain ⟨front, hfront⟩ := hfront
      have hbound := htype.extend front ""
      rw [String.append_empty] at hbound
      rw [hfront, hboxed, exactText]
      exact ⟨hbound, hexact⟩

end Java

end ProgramGen

import ProgramGen.Proofs.Binding.Composition
import ProgramGen.Proofs.Scope.Overlay

/-!
# Substitutions are maps in order of insertion

A substitution is made from a list and changed by insertion, removal and extension with what another
one has besides. Whatever the course, it amounts to single writes: a binding is put, or a name is
dropped. The last write to a name tells what the name stands for. An entry has the place and the key
with which its name came in, which is at the first binding put since the name was last dropped. A binding
put after that changes the value of the entry and nothing else.
-/

namespace ProgramGen

namespace Subst

variable {m m' : Subst} {p q : TypeParam} {t u : Ty} {n : String} {x z : TypeParam × Ty}
variable {xs ys zs : List (TypeParam × Ty)}

/-! ## Entries -/

/-- No two entries have keys of one name. -/
def Distinct (m : Subst) : Prop := (m.keys.map (·.name)).Nodup

theorem distinct_cons :
    Distinct ⟨z :: zs⟩ ↔ (∀ x ∈ zs, z.1.name ≠ x.1.name) ∧ Distinct ⟨zs⟩ := by
  simp only [Distinct, keys, List.map_map, List.map_cons, List.nodup_cons, List.mem_map,
    Function.comp_apply, not_exists, not_and]
  exact and_congr_left' (forall₂_congr fun x _ => ne_comm)

/-- An entry is found by its key. -/
theorem Distinct.get?_of_mem (h : m.Distinct) (hx : x ∈ m.entries) : m.get? x.1 = some x.2 := by
  obtain ⟨zs⟩ := m
  induction zs with
  | nil => cases hx
  | cons z zs ih =>
    obtain ⟨hz, hzs⟩ := distinct_cons.mp h
    rcases List.mem_cons.mp hx with rfl | hx
    · simp [get?, lookup]
    · simpa [get?, lookup, hz x hx] using ih hzs hx

theorem get?_eq_none_iff : m.get? p = none ↔ p.name ∉ m.keys.map (·.name) := by
  constructor
  · intro h hmem
    obtain ⟨u, hu⟩ := exists_lookup_of_mem_keys hmem
    rw [get?, hu] at h
    cases h
  · refine fun h => Option.eq_none_iff_forall_ne_some.mpr fun u hu => h ?_
    obtain ⟨x, hx, hname, -⟩ := mem_of_lookup hu
    exact List.mem_map.mpr ⟨x.1, List.mem_map_of_mem hx, hname⟩

/-- **A new value for a name leaves the entry its place and its key.** -/
theorem Distinct.entries_insert (h : m.Distinct) (hm : m.entries = xs ++ (q, u) :: ys)
    (hq : q.name = p.name) : (m.insert p t).entries = xs ++ (q, t) :: ys := by
  obtain ⟨zs⟩ := m
  obtain rfl : zs = xs ++ (q, u) :: ys := hm
  simp only [Subst.insert]
  induction xs with
  | nil => rw [List.nil_append, insertEntry, if_pos hq, List.nil_append]
  | cons x xs ih =>
    obtain ⟨hx, hxs⟩ := distinct_cons.mp h
    have hne : x.1.name ≠ p.name := hq ▸ hx (q, u) (List.mem_append_right _ List.mem_cons_self)
    rw [List.cons_append, insertEntry, if_neg hne, ih hxs, List.cons_append]

/-- Insertion keeps the keys, or adds one after them if its name is new. -/
theorem keys_insert : (m.insert p t).keys = if m.contains p then m.keys else m.keys ++ [p] := by
  obtain ⟨zs⟩ := m
  simp only [keys, insert, contains, get?, lookup, Option.isSome_map]
  induction zs with
  | nil => rfl
  | cons z zs ih =>
    rw [insertEntry]
    by_cases hz : z.1.name = p.name
    · simp [hz]
    · simp only [if_neg hz, List.map_cons, ih, List.find?_cons, beq_eq_false_iff_ne.mpr hz]
      split <;> rfl

/-- Removal leaves the entries of other names, in their order. -/
theorem Distinct.entries_erase (h : m.Distinct) :
    (m.erase p).entries = m.entries.filter fun x => x.1.name ≠ p.name := by
  obtain ⟨zs⟩ := m
  simp only [Subst.erase]
  induction zs with
  | nil => rfl
  | cons z zs ih =>
    obtain ⟨hz, hzs⟩ := distinct_cons.mp h
    by_cases heq : z.1.name = p.name
    · have hrest : ∀ x ∈ zs, x.1.name ≠ p.name := fun x hx => heq ▸ (hz x hx).symm
      rw [List.eraseP_cons_of_pos (by simp [heq]), List.filter_cons_of_neg (by simp [heq]),
        List.filter_eq_self.mpr fun x hx => by simp [hrest x hx]]
    · rw [List.eraseP_cons_of_neg (by simp [heq]), List.filter_cons_of_pos (by simp [heq]), ih hzs]

theorem Distinct.keys_erase (h : m.Distinct) :
    (m.erase p).keys = m.keys.filter fun q => q.name ≠ p.name := by
  rw [keys, h.entries_erase, keys, List.filter_map]
  rfl

/-- Removal frees the name and leaves the others bound as they are. -/
theorem Distinct.lookup_erase (h : m.Distinct) :
    (m.erase p).lookup n = if p.name = n then none else m.lookup n := by
  rw [lookup, h.entries_erase, List.find?_filter]
  split
  · rename_i heq
    simp [heq]
  · rename_i hne
    rw [lookup]
    congr 2
    funext x
    by_cases hx : x.1.name = n
    · simp [hx, Ne.symm hne]
    · simp [hx]

/-- **No insertion makes a name occur twice.** -/
theorem Distinct.insert (h : m.Distinct) : (m.insert p t).Distinct := by
  rw [Distinct, keys_insert]
  split
  · exact h
  · rename_i hfree
    have hnew := get?_eq_none_iff.mp (Option.not_isSome_iff_eq_none.mp hfree)
    rw [List.map_append, List.map_singleton, ← List.concat_eq_append]
    exact List.Nodup.concat hnew h

theorem Distinct.erase (h : m.Distinct) : (m.erase p).Distinct := by
  rw [Distinct, h.keys_erase]
  exact h.sublist (List.filter_sublist.map _)

/-- The entries of `m'` for names that `m` does not bind, in their order. -/
def missing (m m' : Subst) : List (TypeParam × Ty) := m'.entries.filter fun x => !m.contains x.1

/-- An entry at the end binds its own name only. -/
theorem contains_append (hz : z.1.name ≠ p.name) : contains ⟨xs ++ [z]⟩ p = contains ⟨xs⟩ p := by
  simp [contains, get?, lookup, List.find?_append, hz]

theorem missing_cons : missing m ⟨z :: zs⟩ =
    if m.contains z.1 then missing m ⟨zs⟩ else z :: missing m ⟨zs⟩ := by
  unfold missing
  rw [List.filter_cons]
  cases m.contains z.1 <;> rfl

/-- **Extension keeps the entries and adds the missing ones after them.** -/
theorem Distinct.entries_insertMissing (h : m'.Distinct) :
    (m.insertMissing m').entries = m.entries ++ m.missing m' := by
  obtain ⟨zs⟩ := m'
  simp only [insertMissing]
  induction zs generalizing m with
  | nil => exact (List.append_nil _).symm
  | cons z zs ih =>
    obtain ⟨hz, hzs⟩ := distinct_cons.mp h
    rw [List.foldl_cons, missing_cons]
    split
    · exact ih hzs
    · have hrest : missing ⟨m.entries ++ [z]⟩ ⟨zs⟩ = missing m ⟨zs⟩ :=
        List.filter_congr fun x hx => by rw [contains_append (hz x hx)]
      rw [ih hzs, hrest, List.append_assoc, List.singleton_append]

/-! ## Writes -/

/-- What a change to a substitution comes down to. -/
inductive Write where
  /-- The parameter is bound to the type. -/
  | put (p : TypeParam) (t : Ty)
  /-- The name of the parameter is bound to nothing. -/
  | drop (p : TypeParam)

namespace Write

/-- The name that is written to. -/
def name : Write → String
  | put p _ => p.name
  | drop p => p.name

end Write

open Context (IsLast isLast_append isLast_singleton)

variable {ws before : List Write} {w : Write}

/-- The substitution after one more write. -/
def write (m : Subst) : Write → Subst
  | .put p t => m.insert p t
  | .drop p => m.erase p

/-- The substitution that writes build from nothing. -/
def written (ws : List Write) : Subst := ws.foldl write ∅

theorem written_concat : written (ws ++ [w]) = (written ws).write w := by
  rw [written, List.foldl_append]
  rfl

/-- The last write to the name binds it. -/
def Bound (ws : List Write) (n : String) : Prop :=
  ∃ p t, p.name = n ∧ IsLast Write.name ws (.put p t)

/-- The parameter comes in after the writes `before`: a binding is put for it where its name is not bound,
and the name is not dropped after that. -/
def Enters (ws before : List Write) (p : TypeParam) : Prop :=
  ∃ t later, ws = before ++ .put p t :: later ∧ ¬ Bound before p.name ∧
    ∀ q, .drop q ∈ later → q.name ≠ p.name

/-- **No writes make a name occur twice.** -/
theorem distinct_written (ws : List Write) : (written ws).Distinct :=
  List.foldlRecOn ws write List.nodup_nil fun m hm w _ => by
    cases w with
    | put p t => exact Distinct.insert hm
    | drop p => exact Distinct.erase hm

/-- **A name stands for what the last write to it says.** -/
theorem lookup_written : (written ws).lookup n = some t ↔
    ∃ p, p.name = n ∧ IsLast Write.name ws (.put p t) := by
  induction ws using List.reverseRecOn with
  | nil => simp [written, Context.not_isLast_nil]
  | append_singleton ws w ih =>
    simp only [written_concat, isLast_append, isLast_singleton, List.forall_mem_singleton]
    cases w with
    | put q u =>
      rw [write, lookup_insert]
      split <;> grind [Write.name]
    | drop q =>
      rw [write, (distinct_written ws).lookup_erase]
      split <;> grind [Write.name]

theorem bound_iff : Bound ws n ↔ ∃ t, (written ws).lookup n = some t := by
  simp only [Bound, lookup_written]
  exact exists_comm

instance : Decidable (Bound ws n) :=
  decidable_of_iff ((written ws).lookup n).isSome (by rw [bound_iff, Option.isSome_iff_exists])

theorem contains_written : (written ws).contains p = decide (Bound ws p.name) := by
  rw [Bool.eq_iff_iff, decide_eq_true_iff, bound_iff, contains, Option.isSome_iff_exists, get?]

/-! ## The order of the entries -/

/-- With one write more, what has come in stays unless its name is dropped, and what is bound anew comes
in last. -/
theorem enters_concat : Enters (ws ++ [w]) before p ↔
    Enters ws before p ∧ (∀ q, w = .drop q → q.name ≠ p.name) ∨
      before = ws ∧ ¬ Bound ws p.name ∧ ∃ t, w = .put p t := by
  constructor
  · rintro ⟨t, later, heq, hfree, hlater⟩
    rcases List.eq_nil_or_concat later with rfl | ⟨later, w', rfl⟩
    · obtain ⟨rfl, hw⟩ := List.append_inj' heq rfl
      exact .inr ⟨rfl, hfree, t, List.singleton_inj.mp hw⟩
    · rw [List.concat_eq_append, ← List.cons_append, ← List.append_assoc] at heq
      obtain ⟨rfl, hw⟩ := List.append_inj' heq rfl
      obtain rfl := List.singleton_inj.mp hw
      simp only [List.concat_eq_append, List.mem_append, List.mem_singleton] at hlater
      exact .inl ⟨⟨t, later, rfl, hfree, fun q hq => hlater q (.inl hq)⟩,
        fun q hq => hlater q (.inr hq.symm)⟩
  · rintro (⟨⟨t, later, rfl, hfree, hlater⟩, hw⟩ | ⟨rfl, hfree, t, rfl⟩)
    · refine ⟨t, later ++ [w], by simp, hfree, fun q hq => ?_⟩
      rcases List.mem_append.mp hq with hq | hq
      · exact hlater q hq
      · exact hw q (List.mem_singleton.mp hq).symm
    · exact ⟨t, [], rfl, hfree, fun q hq => by cases hq⟩

theorem Enters.length_lt (h : Enters ws before p) : before.length < ws.length := by
  obtain ⟨t, later, rfl, -, -⟩ := h
  simp

theorem bound_of_mem_keys (h : p ∈ (written ws).keys) : Bound ws p.name :=
  bound_iff.mpr (exists_lookup_of_mem_keys (List.mem_map_of_mem h))

/-- What was a key before the last write had come in before it. -/
theorem Enters.of_concat (h : Enters (ws ++ [w]) before p) (hp : p ∈ (written ws).keys) :
    Enters ws before p := by
  rcases enters_concat.mp h with ⟨h, -⟩ | ⟨-, hfree, -⟩
  · exact h
  · exact absurd (bound_of_mem_keys hp) hfree

theorem keys_put_of_bound (h : Bound ws p.name) :
    (written (ws ++ [.put p t])).keys = (written ws).keys := by
  rw [written_concat, write, keys_insert, contains_written, if_pos (decide_eq_true h)]

theorem keys_put_of_not_bound (h : ¬ Bound ws p.name) :
    (written (ws ++ [.put p t])).keys = (written ws).keys ++ [p] := by
  rw [written_concat, write, keys_insert, contains_written, if_neg (by simpa using h)]

theorem keys_drop : (written (ws ++ [.drop p])).keys =
    (written ws).keys.filter fun q => q.name ≠ p.name := by
  rw [written_concat, write, (distinct_written ws).keys_erase]

/-- **The keys are the parameters that have come in.** -/
theorem mem_keys_written : p ∈ (written ws).keys ↔ ∃ before, Enters ws before p := by
  induction ws using List.reverseRecOn with
  | nil =>
    refine iff_of_false List.not_mem_nil ?_
    rintro ⟨before, h⟩
    exact absurd h.length_lt (Nat.not_lt_zero _)
  | append_singleton ws w ih =>
    simp only [enters_concat, exists_or, exists_and_right, ← ih, exists_eq, true_and]
    cases w with
    | put q u =>
      simp only [reduceCtorEq, false_implies, implies_true, and_true, Write.put.injEq]
      by_cases hq : Bound ws q.name
      · rw [keys_put_of_bound hq, iff_self_or]
        rintro ⟨hfree, t, rfl, -⟩
        exact absurd hq hfree
      · rw [keys_put_of_not_bound hq, List.mem_append, List.mem_singleton]
        refine or_congr_right ⟨?_, ?_⟩
        · rintro rfl
          exact ⟨hq, u, rfl, rfl⟩
        · rintro ⟨-, t, rfl, -⟩
          rfl
    | drop q =>
      simp only [keys_drop, List.mem_filter, decide_eq_true_eq, Write.drop.injEq, forall_eq',
        reduceCtorEq, exists_false, and_false, or_false]
      exact and_congr_right' ne_comm

/-- Wherever the two parameters come in, the first one comes in earlier. -/
def EntersBefore (ws : List Write) (p q : TypeParam) : Prop :=
  ∀ before before', Enters ws before p → Enters ws before' q → before.length < before'.length

/-- **The keys stand in the order in which they have come in.** -/
theorem pairwise_keys_written (ws : List Write) : (written ws).keys.Pairwise (EntersBefore ws) := by
  induction ws using List.reverseRecOn with
  | nil => exact .nil
  | append_singleton ws w ih =>
    have hold : (written ws).keys.Pairwise (EntersBefore (ws ++ [w])) :=
      ih.imp_of_mem fun hp hq h before before' hbefore hbefore' =>
        h before before' (hbefore.of_concat hp) (hbefore'.of_concat hq)
    cases w with
    | put q u =>
      by_cases hq : Bound ws q.name
      · rwa [keys_put_of_bound hq]
      · rw [keys_put_of_not_bound hq]
        refine List.pairwise_append.mpr ⟨hold, List.pairwise_singleton _ _, ?_⟩
        intro p hp q' hq' before before' hbefore hbefore'
        obtain rfl := List.mem_singleton.mp hq'
        -- The name was not bound, so the parameter comes in with the last write.
        rcases enters_concat.mp hbefore' with ⟨hbefore', -⟩ | ⟨rfl, -, -⟩
        · exact absurd (bound_of_mem_keys (mem_keys_written.mpr ⟨before', hbefore'⟩)) hq
        · exact (hbefore.of_concat hp).length_lt
    | drop q =>
      rw [keys_drop]
      exact hold.filter _

/-! ## Courses -/

/-- How a substitution has come about. -/
inductive History where
  /-- It was made from a list, such as one of parameters with their arguments. -/
  | ofList (xs : List (TypeParam × Ty))
  | insert (h : History) (p : TypeParam) (t : Ty)
  | erase (h : History) (p : TypeParam)
  /-- It was extended with what another one has besides. -/
  | insertMissing (h other : History)

namespace History

/-- The substitution that has come about. -/
def result : History → Subst
  | .ofList xs => .ofList xs
  | .insert h p t => h.result.insert p t
  | .erase h p => h.result.erase p
  | .insertMissing h other => h.result.insertMissing other.result

/-- The single writes that it comes down to. An extension puts the entries of the other substitution whose
names are not bound, in its order. -/
def writes : History → List Write
  | .ofList xs => xs.map fun x => .put x.1 x.2
  | .insert h p t => h.writes ++ [.put p t]
  | .erase h p => h.writes ++ [.drop p]
  | .insertMissing h other => h.writes ++
    (other.result.entries.filter fun x => ¬ Bound h.writes x.1.name).map fun x => .put x.1 x.2

end History

/-- Entries of new names may as well be inserted one by one. -/
theorem foldl_write_puts (hm : ∀ x ∈ xs, m.contains x.1 = false) (hxs : Distinct ⟨xs⟩) :
    (xs.map fun x => Write.put x.1 x.2).foldl write m = ⟨m.entries ++ xs⟩ := by
  induction xs generalizing m with
  | nil => simp
  | cons x xs ih =>
    obtain ⟨hx, hxs⟩ := distinct_cons.mp hxs
    obtain ⟨hnew, hm⟩ := List.forall_mem_cons.mp hm
    have hinsert : m.write (.put x.1 x.2) = ⟨m.entries ++ [x]⟩ :=
      congrArg Subst.mk (Subst.entries_insert (by simpa [contains] using hnew))
    have hm' : ∀ y ∈ xs, contains ⟨m.entries ++ [x]⟩ y.1 = false := fun y hy =>
      (contains_append (hx y hy)).trans (hm y hy)
    rw [List.map_cons, List.foldl_cons, hinsert, ih hm' hxs, List.append_assoc, List.singleton_append]

/-- An extension comes down to insertions of what is missing. -/
theorem Distinct.insertMissing_eq_foldl (h : m'.Distinct) : m.insertMissing m' =
    ((m.missing m').map fun x => Write.put x.1 x.2).foldl write m := by
  rw [foldl_write_puts]
  · exact congrArg Subst.mk h.entries_insertMissing
  · exact fun x hx => by simpa using (List.mem_filter.mp hx).2
  · rw [Distinct, keys, List.map_map] at h ⊢
    exact h.sublist (List.filter_sublist.map _)

/-- **Every course of operations comes down to single writes.** -/
theorem History.result_eq_written (h : History) : h.result = written h.writes := by
  induction h with
  | ofList xs =>
    rw [writes, written, List.foldl_map]
    rfl
  | insert h p t ih =>
    rw [writes, written_concat, ← ih]
    rfl
  | erase h p ih =>
    rw [writes, written_concat, ← ih]
    rfl
  | insertMissing h other ih ihother =>
    have hother : other.result.Distinct := ihother ▸ distinct_written _
    have hmissing : h.result.missing other.result =
        other.result.entries.filter fun x => ¬ Bound h.writes x.1.name :=
      List.filter_congr fun x _ => by rw [ih, contains_written, decide_not]
    rw [writes, written, List.foldl_append, ← written, ← ih, ← hmissing,
      ← hother.insertMissing_eq_foldl]
    rfl

/-- A finite map by names that keeps the order of insertion, as the writes have left it. -/
structure IsOrderedMap (m : Subst) (ws : List Write) : Prop where
  /-- No two entries have keys of one name. -/
  distinct : m.Distinct
  /-- A parameter stands for the type of the last binding put for its name, if the name is not dropped
  after that, whatever variance and bound the parameter is given with. -/
  get?_iff : ∀ p t, m.get? p = some t ↔ ∃ q, q.name = p.name ∧ IsLast Write.name ws (.put q t)
  /-- The entries are the keys with what they stand for. -/
  entry : ∀ x ∈ m.entries, m.get? x.1 = some x.2
  /-- The keys are those of the first bindings put since their names were last dropped. -/
  mem_keys_iff : ∀ p, p ∈ m.keys ↔ ∃ before, Enters ws before p
  /-- They stand in the order of these bindings. -/
  ordered : m.keys.Pairwise (EntersBefore ws)
  /-- A new value for a name leaves the entry its place and its key. -/
  replaced : ∀ p q t u xs ys, m.entries = xs ++ (q, u) :: ys → q.name = p.name →
    (m.insert p t).entries = xs ++ (q, t) :: ys
  /-- Extension keeps all entries and appends those of the other map whose names are missing, in its
  order. -/
  extended : ∀ other : History,
    (m.insertMissing other.result).entries = m.entries ++ m.missing other.result

/-- **A substitution is a finite map by names in order of insertion**, however it has come about. -/
theorem History.isOrderedMap (h : History) : h.result.IsOrderedMap h.writes := by
  have hdistinct : ∀ h : History, h.result.Distinct := fun h =>
    h.result_eq_written ▸ distinct_written h.writes
  refine ⟨hdistinct h, fun p t => ?_, fun x hx => (hdistinct h).get?_of_mem hx, fun p => ?_, ?_,
    fun p q t u xs ys => (hdistinct h).entries_insert, fun other => (hdistinct other).entries_insertMissing⟩
  · rw [result_eq_written, get?, lookup_written]
  · rw [result_eq_written, mem_keys_written]
  · rw [result_eq_written]
    exact pairwise_keys_written h.writes

/-- A new value keeps the first key, and a name that has been dropped comes in again at the end. -/
example :
    ((((History.ofList [(.plain "A", .simple "Cup" []), (.plain "B", .simple "Jug" [])]).insert
      ⟨"B", .covariant, none⟩ (.simple "Mug" [])).erase (.plain "A")).insertMissing
        (.ofList [(.plain "B", .simple "Pot" []), (.plain "A", .simple "Pot" [])])).result.entries =
      [(.plain "B", .simple "Mug" []), (.plain "A", .simple "Pot" [])] := by
  decide +kernel

end Subst

end ProgramGen

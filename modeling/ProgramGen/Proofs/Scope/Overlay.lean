import ProgramGen.Scope.Context
import Mathlib.Data.List.Basic
import Mathlib.Data.List.Induction
import Mathlib.Data.List.Nodup

/-!
# What is laid over what

Look-up collects bindings from the outside in, and lays each over those before it: a binding takes
the place of the one that has its name, or comes last if there is none. Of what is laid over in this
way there remains, for each name, the last binding, in the place of the first.
-/

namespace ProgramGen

namespace Context

variable {α β : Type} {name : α → String} {xs ys : List α} {x y : α} {n : String}

/-- The element is the last one of its name. -/
def IsLast (name : α → String) (xs : List α) (x : α) : Prop :=
  ∃ before after, xs = before ++ x :: after ∧ ∀ y ∈ after, name y ≠ name x

theorem IsLast.mem (h : IsLast name xs x) : x ∈ xs := by
  obtain ⟨before, after, rfl, -⟩ := h
  exact List.mem_append_right _ List.mem_cons_self

/-- The last one of a name among two lists is in the second one, unless that has none of the name. -/
theorem isLast_append : IsLast name (xs ++ ys) x ↔
    IsLast name ys x ∨ IsLast name xs x ∧ ∀ y ∈ ys, name y ≠ name x := by
  constructor
  · rintro ⟨before, after, heq, hlast⟩
    rcases List.append_eq_append_iff.mp heq with ⟨mid, rfl, rfl⟩ | ⟨mid, rfl, hmid⟩
    · exact .inl ⟨mid, after, rfl, hlast⟩
    · cases mid with
      | nil => exact .inl ⟨[], after, hmid.symm, hlast⟩
      | cons z mid =>
        cases hmid
        exact .inr ⟨⟨before, mid, rfl, fun y hy => hlast y (List.mem_append_left _ hy)⟩,
          fun y hy => hlast y (List.mem_append_right _ hy)⟩
  · rintro (⟨before, after, rfl, hlast⟩ | ⟨⟨before, after, rfl, hlast⟩, hys⟩)
    · exact ⟨xs ++ before, after, (List.append_assoc ..).symm, hlast⟩
    · exact ⟨before, after ++ ys, List.append_assoc .., List.forall_mem_append.mpr ⟨hlast, hys⟩⟩

theorem isLast_singleton : IsLast name [y] x ↔ x = y := by
  constructor
  · exact fun h => List.mem_singleton.mp h.mem
  · rintro rfl
    exact ⟨[], [], rfl, fun _ h => absurd h List.not_mem_nil⟩

theorem not_isLast_nil : ¬ IsLast name [] x := fun h => absurd h.mem List.not_mem_nil

/-- Of lists one after the other, the last one of a name is in the last list that has one. -/
theorem IsLast.of_flatMap {scopes : List β} {bound : β → List α}
    (h : IsLast name (scopes.flatMap bound) x) :
    ∃ before s after, scopes = before ++ s :: after ∧ IsLast name (bound s) x ∧
      ∀ m ∈ after, ∀ y ∈ bound m, name y ≠ name x := by
  induction scopes with
  | nil => exact absurd h not_isLast_nil
  | cons m scopes ih =>
    rcases isLast_append.mp h with h | ⟨h, hrest⟩
    · obtain ⟨before, s, after, rfl, hs⟩ := ih h
      exact ⟨m :: before, s, after, rfl, hs⟩
    · exact ⟨[], m, scopes, rfl, h, fun s hs y hy => hrest y (List.mem_flatMap.mpr ⟨s, hs, hy⟩)⟩

theorem IsLast.of_map {key : β → String} {f : α → β} {z : β} (h : IsLast key (xs.map f) z) :
    ∃ x, z = f x ∧ IsLast (fun x => key (f x)) xs x := by
  obtain ⟨before, after, heq, hlast⟩ := h
  obtain ⟨before, rest, rfl, rfl, hrest⟩ := List.map_eq_append_iff.mp heq
  obtain ⟨x, after, rfl, rfl, rfl⟩ := List.map_eq_cons_iff.mp hrest
  exact ⟨x, rfl, before, after, rfl, fun y hy => hlast (f y) (List.mem_map_of_mem hy)⟩

/-! ## One binding more -/

/-- What has a new name comes last. -/
theorem overlay_eq_append (h : name x ∉ xs.map name) : overlay name xs x = xs ++ [x] := by
  induction xs with
  | nil => rfl
  | cons y ys ih =>
    rw [List.map_cons, List.mem_cons, not_or] at h
    rw [overlay, if_neg (Ne.symm h.1), ih h.2, List.cons_append]

/-- What has a name that is there already leaves the names as they are. -/
theorem map_name_overlay (h : name x ∈ xs.map name) : (overlay name xs x).map name = xs.map name := by
  induction xs with
  | nil => cases h
  | cons y ys ih =>
    rw [overlay]
    split
    · rw [List.map_cons, List.map_cons, ‹name y = name x›]
    · have hys : name x ∈ ys.map name :=
        (List.mem_cons.mp h).resolve_left (Ne.symm ‹¬ name y = name x›)
      rw [List.map_cons, ih hys, List.map_cons]

theorem mem_overlay_iff (h : (xs.map name).Nodup) :
    y ∈ overlay name xs x ↔ y = x ∨ y ∈ xs ∧ name y ≠ name x := by
  induction xs with
  | nil => simp [overlay]
  | cons z zs ih =>
    obtain ⟨hz, hzs⟩ := List.nodup_cons.mp h
    rw [overlay]
    split
    · rename_i heq
      have hne : ∀ w ∈ zs, name w ≠ name x := fun w hw hname =>
        hz (List.mem_map.mpr ⟨w, hw, hname.trans heq.symm⟩)
      grind
    · rename_i hne
      have := ih hzs
      grind

/-- What is kept of the bindings may be read before they are laid over one another. -/
theorem map_overlay {key : β → String} {f : α → β} :
    (overlay (fun x => key (f x)) xs x).map f = overlay key (xs.map f) (f x) := by
  induction xs with
  | nil => rfl
  | cons y ys ih =>
    rw [overlay, List.map_cons, overlay]
    split
    · rfl
    · rw [List.map_cons, ih]

/-! ## All bindings -/

/-- What remains when each element is laid over those before it. -/
def merged (name : α → String) (xs : List α) : List α := xs.foldl (overlay name) []

theorem merged_append_singleton : merged name (xs ++ [x]) = overlay name (merged name xs) x := by
  rw [merged, List.foldl_append]
  rfl

theorem map_merged {key : β → String} {f : α → β} :
    (merged (fun x => key (f x)) xs).map f = merged key (xs.map f) := by
  induction xs using List.reverseRecOn with
  | nil => rfl
  | append_singleton xs x ih =>
    rw [merged_append_singleton, map_overlay, ih, List.map_append, List.map_singleton,
      merged_append_singleton]

/-- **The names that remain are those that there were.** -/
theorem mem_map_merged : n ∈ (merged name xs).map name ↔ n ∈ xs.map name := by
  induction xs using List.reverseRecOn with
  | nil => rfl
  | append_singleton xs x ih =>
    rw [merged_append_singleton, List.map_append, List.mem_append, List.map_singleton, List.mem_singleton]
    by_cases hx : name x ∈ (merged name xs).map name
    · rw [map_name_overlay hx, ih, iff_self_or]
      rintro rfl
      exact ih.mp hx
    · rw [overlay_eq_append hx, List.map_append, List.mem_append, ih, List.map_singleton,
        List.mem_singleton]

/-- **They come in the order in which they are first bound**, each of them once. -/
theorem pairwise_merged : (merged name xs).Pairwise fun x y =>
    (xs.map name).idxOf (name x) < (xs.map name).idxOf (name y) := by
  suffices h : ((merged name xs).map name).Pairwise fun m n =>
      (xs.map name).idxOf m < (xs.map name).idxOf n by
    rwa [List.pairwise_map] at h
  induction xs using List.reverseRecOn with
  | nil => exact List.Pairwise.nil
  | append_singleton xs x ih =>
    -- One binding more at the end moves no name from the place where it was first bound.
    have hkeep : ((merged name xs).map name).Pairwise fun m n =>
        ((xs ++ [x]).map name).idxOf m < ((xs ++ [x]).map name).idxOf n := by
      refine ih.imp_of_mem fun hm hn hlt => ?_
      rwa [List.map_append, List.idxOf_append_of_mem (mem_map_merged.mp hm),
        List.idxOf_append_of_mem (mem_map_merged.mp hn)]
    rw [merged_append_singleton]
    by_cases hx : name x ∈ (merged name xs).map name
    · rwa [map_name_overlay hx]
    · have hnames : (merged name xs ++ [x]).map name = (merged name xs).map name ++ [name x] :=
        List.map_append
      rw [overlay_eq_append hx, hnames, List.pairwise_append]
      refine ⟨hkeep, List.pairwise_singleton .., fun m hm n hn => ?_⟩
      obtain rfl := List.mem_singleton.mp hn
      have hm := mem_map_merged.mp hm
      rw [List.map_append, List.idxOf_append_of_mem hm,
        List.idxOf_append_of_notMem (fun h => hx (mem_map_merged.mpr h))]
      have := List.idxOf_lt_length_iff.mpr hm
      omega

theorem nodup_map_merged : ((merged name xs).map name).Nodup := by
  rw [List.Nodup, List.pairwise_map]
  exact pairwise_merged.imp fun hlt heq => by rw [heq] at hlt; exact absurd hlt (Nat.lt_irrefl _)

/-- **The last binding of each name remains.** -/
theorem mem_merged : y ∈ merged name xs ↔ IsLast name xs y := by
  induction xs using List.reverseRecOn with
  | nil => exact iff_of_false List.not_mem_nil not_isLast_nil
  | append_singleton xs x ih =>
    rw [merged_append_singleton, mem_overlay_iff nodup_map_merged, isLast_append, isLast_singleton, ih]
    refine or_congr_right (and_congr_right fun _ => ?_)
    rw [List.forall_mem_singleton]
    exact ne_comm

/-- Where no name comes twice, nothing is laid over anything. -/
theorem merged_eq_self (h : (xs.map name).Nodup) : merged name xs = xs := by
  induction xs using List.reverseRecOn with
  | nil => rfl
  | append_singleton xs x ih =>
    rw [List.map_append, List.nodup_append] at h
    obtain ⟨hxs, -, hdisjoint⟩ := h
    rw [merged_append_singleton, ih hxs, overlay_eq_append]
    exact fun hx => hdisjoint _ hx _ List.mem_cons_self rfl

/-! ## Look-up -/

variable {c : Context} {k : DeclKind} {ns : Namespace}

theorem visible_eq_merged : c.visible k ns = merged Decl.name (ns.lineage.flatMap (c.own k)) :=
  List.foldl_flatMap.symm

theorem scopedVars_eq_merged : c.scopedVars ns =
    merged (·.2.name) (ns.lineage.flatMap fun s => (c.own .var s).map (s, ·)) :=
  List.foldl_flatMap.symm

theorem types_eq_merged : c.types ns true =
    merged TypeParam.name (ns.lineage.flatMap fun s => (c.scope s).types) :=
  List.foldl_flatMap.symm

end Context

end ProgramGen

import ProgramGen.Proofs.Subtyping.ClassTable

/-!
# Substitution is monotone

Two instances of one class, with arguments related by variance, inherit related supertypes. What a
declared supertype becomes under the two substitutions is related by the position it stands at: the
argument itself where the supertype is a parameter, and argument by argument where it is a generic
class. This takes no transitivity, so that transitivity can rest on it.
-/

namespace ProgramGen

variable {V : Vocabulary} {a b t : Ty} {c : TypeCtor} {xs ys : List Ty}
variable {ps : List TypeParam}

/-! ## The relation over a table -/

/-- Over a table, one of the five grounds is what it takes to be a subtype. -/
theorem Ty.Over.isSubtype_iff_below (ha : a.Over V) (hb : b.Over V) :
    a.isSubtype b ↔ a.Below b :=
  Ty.isSubtype_iff_below ha.isWildcard hb.isWildcard (fun _ hx => (ha.of_mem_args hx).isWildcard)
    fun _ hy => (hb.of_mem_args hy).isWildcard

/-! ## Positions -/

/-- A parameter's arguments are related at every position that the parameter may stand at. -/
theorem Variance.Allows.relates {v pos : Variance} {x y : Ty} (h : v.Allows pos)
    (hxy : v.Relates x y) : pos.Relates x y := by
  rcases h with rfl | rfl
  · rw [show x = y from hxy]
    exact pos.relates_refl y
  · exact hxy

theorem Variance.within_covariant (v : Variance) : Variance.covariant.within v = v := by
  cases v <;> rfl

theorem Variance.within_invariant (v : Variance) : Variance.invariant.within v = .invariant := by
  cases v <;> rfl

/-- A contravariant position turns every relation around. -/
theorem Variance.relates_within_contravariant (v : Variance) (x y : Ty) :
    (Variance.contravariant.within v).Relates x y ↔ v.Relates y x := by
  cases v with
  | invariant => exact eq_comm
  | covariant => exact Iff.rfl
  | contravariant => exact Iff.rfl

theorem Ty.Over.isSubtype_of_argsRelated (hxs : (Ty.applied c xs).Over V)
    (hys : (Ty.applied c ys).Over V) (h : ArgsRelated c.params xs ys) :
    (Ty.applied c xs).isSubtype (.applied c ys) :=
  (hxs.isSubtype_iff_below hys).mpr
    (.args rfl rfl rfl (hxs.length_args.trans hys.length_args.symm) h)

/-- Arguments related at their places inside a position relate the types they belong to there. -/
theorem relates_applied {pos : Variance} (hxs : (Ty.applied c xs).Over V)
    (hys : (Ty.applied c ys).Over V)
    (h : ∀ i (hp : i < c.params.length) (hx : i < xs.length) (hy : i < ys.length),
      (pos.within c.params[i].variance).Relates xs[i] ys[i]) :
    pos.Relates (.applied c xs) (.applied c ys) := by
  have hxl := hxs.length_args
  have hyl := hys.length_args
  cases pos with
  | invariant =>
    simp only [Variance.within_invariant] at h
    have : xs = ys := List.ext_getElem (hxl.trans hyl.symm) fun i hx hy =>
      h i (hxl ▸ hx) hx hy
    exact congrArg (Ty.applied c) this
  | covariant =>
    simp only [Variance.within_covariant] at h
    exact hxs.isSubtype_of_argsRelated hys (argsRelated_iff.mpr h)
  | contravariant =>
    simp only [Variance.relates_within_contravariant] at h
    exact hys.isSubtype_of_argsRelated hxs (argsRelated_iff.mpr fun i hp hy hx => h i hp hx hy)

/-! ## Substitution -/

/-- Of two lists of bindings for the same parameters, a name takes the values at one place. -/
theorem Subst.lookup_ofList_pair {L : List (TypeParam × Ty × Ty)} {n : String}
    (h : ∃ q ∈ L, q.1.name = n) : ∃ q ∈ L, q.1.name = n ∧
      (ofList (L.map (Prod.map id Prod.fst))).lookup n = some q.2.1 ∧
      (ofList (L.map (Prod.map id Prod.snd))).lookup n = some q.2.2 := by
  induction L using List.reverseRecOn with
  | nil => simp at h
  | append_singleton L z ih =>
    simp only [List.map_append, List.map_singleton, ofList_append_singleton, lookup_insert]
    by_cases hz : z.1.name = n
    · exact ⟨z, by simp, hz, by simp [hz], by simp [hz]⟩
    · obtain ⟨q, hq, hqn⟩ := h
      rcases List.mem_append.mp hq with hq | hq
      · obtain ⟨q, hq, hqn, h1, h2⟩ := ih ⟨q, hq, hqn⟩
        exact ⟨q, by simp [hq], hqn, by simpa [hz] using h1, by simpa [hz] using h2⟩
      · rw [List.mem_singleton.mp hq] at hqn
        exact absurd hqn hz

/-- Two lists of arguments bind a parameter to related arguments. -/
theorem ArgsRelated.lookup {n : String} (h : ArgsRelated ps xs ys) (hxs : xs.length = ps.length)
    (hys : ys.length = ps.length) (hn : ∃ q ∈ ps, q.name = n) :
    ∃ q ∈ ps, q.name = n ∧ ∃ x y, (Subst.ofArgs ps xs).lookup n = some x ∧
      (Subst.ofArgs ps ys).lookup n = some y ∧ q.variance.Relates x y := by
  have hfst : (ps.zip (xs.zip ys)).map (Prod.map id Prod.fst) = ps.zip xs := by
    rw [← List.zip_map_right, List.map_fst_zip (by omega)]
  have hsnd : (ps.zip (xs.zip ys)).map (Prod.map id Prod.snd) = ps.zip ys := by
    rw [← List.zip_map_right, List.map_snd_zip (by omega)]
  have hplace : ∃ q ∈ ps.zip (xs.zip ys), q.1.name = n := by
    obtain ⟨q, hq, hqn⟩ := hn
    have hps : (ps.zip (xs.zip ys)).map Prod.fst = ps := List.map_fst_zip (by simp; omega)
    rw [← hps] at hq
    obtain ⟨z, hz, rfl⟩ := List.mem_map.mp hq
    exact ⟨z, hz, hqn⟩
  obtain ⟨z, hz, hzn, hx, hy⟩ := Subst.lookup_ofList_pair hplace
  rw [hfst] at hx
  rw [hsnd] at hy
  exact ⟨z.1, (List.of_mem_zip hz).1, hzn, z.2.1, z.2.2, hx, hy, h z hz⟩

/-- **Related arguments make related supertypes**, by the position that the supertype varies in. -/
theorem Ty.Over.subst_relates {pos : Variance} (ht : t.Over V) (hv : t.VariesIn ps pos)
    (hxs : ∀ x ∈ xs, x.Over V) (hys : ∀ y ∈ ys, y.Over V)
    (hxl : xs.length = ps.length) (hyl : ys.length = ps.length) (h : ArgsRelated ps xs ys) :
    pos.Relates (t.subst (Subst.ofArgs ps xs)) (t.subst (Subst.ofArgs ps ys)) := by
  induction ht generalizing pos with
  | builtin | simple | constructor =>
    simp only [Ty.subst]
    exact pos.relates_refl _
  | @param p =>
    obtain ⟨n, v, bound⟩ := p
    cases hv with
    | param hown hpos =>
      obtain ⟨q, hq, hqn, x, y, hx, hy, hxy⟩ := h.lookup hxl hyl hown
      simp only [Ty.subst, hx, hy]
      exact (hpos q hq hqn).relates hxy
  | @applied d args hc hlength hargs ih =>
    cases hv with
    | applied hv =>
      have hx : ((Ty.applied d args).subst (Subst.ofArgs ps xs)).Over V :=
        (Ty.Over.applied hc hlength hargs).subst fun _ _ hl => hxs _ (Subst.mem_of_lookup_ofArgs hl)
      have hy : ((Ty.applied d args).subst (Subst.ofArgs ps ys)).Over V :=
        (Ty.Over.applied hc hlength hargs).subst fun _ _ hl => hys _ (Subst.mem_of_lookup_ofArgs hl)
      simp only [Ty.subst, Ty.substList_eq] at hx hy ⊢
      refine relates_applied hx hy fun i hp hi hi' => ?_
      simp only [List.length_map] at hi
      simp only [List.getElem_map]
      refine ih _ (List.getElem_mem hi) ?_
      have hz : i < (d.params.zip args).length := by simp; omega
      simpa only [List.getElem_zip] using hv _ (List.getElem_mem hz)

end ProgramGen

import ProgramGen.Proofs.Binding.Projection
import ProgramGen.Proofs.Frame.Matching
import ProgramGen.Proofs.Subtyping.Bounds

/-!
# A class for a type keeps the bounds that depend on nothing

The letters that take the place of the variables of a type have their effective bounds, but only those in which
no variable is mentioned. So the variables can be arguments of the class, as each is within the bound of its
letter; and the member, which is of the type with letters in it, is well bounded as the type is, if the bounds
of the variables mention no variables. If one does, the letters may be less than what the classes in the type
ask for.
-/

namespace ProgramGen

open Session Gen

variable {s s' : Session} {e : Engine} {t b : Ty} {receiver member : Ty} {asField : Bool} {c : ClassDecl}
variable {R Q : Session → Session → Prop} [Oblivious R] [Oblivious Q] [Encloses R Q]
variable {vars letters params : List TypeParam} {taken : List String} {p : TypeParam} {m : Subst}

/-! ## Bounds of letters -/

/-- The bound that the letter for a variable has. -/
def TypeParam.closedBound (p : TypeParam) : Option Ty := p.effectiveBound.filter fun b => !b.hasVariables

theorem TypeParam.closedBound_eq_some :
    p.closedBound = some b ↔ p.effectiveBound = some b ∧ b.hasVariables = false := by
  simp [closedBound, Option.filter_eq_some_iff]

/-- A bound that mentions no variables is the bound of the letter. -/
theorem TypeParam.closedBound_eq_bound (h : ∀ b ∈ p.bound, b.hasVariables = false) : p.closedBound = p.bound := by
  have heffective : p.effectiveBound = p.bound :=
    effectiveBound_eq_bound fun b hb => Ty.isVariable_eq_false (Ty.openParams_eq_nil (h b hb))
  refine Option.ext fun b => ?_
  rw [closedBound_eq_some, heffective]
  exact and_iff_left_of_imp (h b)

/-- **Each letter has the bound of its variable**, if that mentions no variables. -/
theorem Gen.abstractVariables_bounds :
    (abstractVariables vars taken m params).Yields OnlyDraws s fun r _ =>
      ∃ letters, r.2 = params ++ letters ∧ ∀ x ∈ letters.zip vars, x.1.bound = x.2.closedBound := by
  induction vars generalizing s taken m params with
  | nil => exact .pure ⟨[], (List.append_nil _).symm, nofun⟩
  | cons v vs ih =>
    rw [abstractVariables]
    refine Yields.bind (Q := fun _ s' => s.OnlyDraws s') (.rand fun _ stream _ => ⟨stream, rfl⟩) fun o s₁ _ _ => ?_
    split
    · exact .pure ⟨[], (List.append_nil _).symm, by simp⟩
    · refine ih.mono fun r _ _ hletters => ?_
      obtain ⟨letters, hr, hbounds⟩ := hletters
      refine ⟨_ :: letters, by rw [hr, List.append_assoc, List.singleton_append], ?_⟩
      rw [List.zip_cons_cons]
      exact List.forall_mem_cons.mpr ⟨rfl, hbounds⟩

/-- No bound of a variable of the type mentions a variable. -/
def Ty.ClosedBounds (t : Ty) : Prop := ∀ p, t.Occurs p → ∀ b ∈ p.bound, b.hasVariables = false

/-! ## The receiver -/

/-- **The variables can be arguments of the class**, as each is within the bound of its letter. -/
theorem ClassDecl.wellBounded_receiverFor (hvars : ∀ v ∈ vars, (Ty.param v).WellBounded ∧ (Ty.param v).Scoped)
    (hbounds : ∀ x ∈ c.typeParams.zip vars, x.1.bound = x.2.closedBound) : (c.receiverFor vars).WellBounded := by
  unfold receiverFor
  split
  · refine .applied (fun a ha => ?_) fun x hx b hb => ?_
    · obtain ⟨v, hv, rfl⟩ := List.mem_map.mp ha
      exact (hvars v hv).1
    · replace hx : x ∈ c.typeParams.zip (vars.map .param) := hx
      rw [List.zip_map_right] at hx
      obtain ⟨⟨q, v⟩, hqv, rfl⟩ := List.mem_map.mp hx
      obtain ⟨heffective, hclosed⟩ := TypeParam.closedBound_eq_some.mp ((hbounds _ hqv).symm.trans hb)
      rw [Ty.subst_of_openParams_eq_nil (Ty.openParams_eq_nil hclosed)]
      exact (hvars v (List.of_mem_zip hqv).2).2.isSubtype_effectiveBound heffective
  · rw [ClassDecl.type, if_pos (by simpa [ClassDecl.isGeneric] using ‹¬c.isGeneric = true›)]
    exact .simple

/-! ## The member -/

/-- The letters keep the bounds of the variables, if these mention no variables. -/
theorem Lettered.keepsBounds (h : Lettered t.typeVars [] letters) (hname : t.Nameable)
    (hbounds : ∀ x ∈ letters.zip t.typeVars, x.1.bound = x.2.closedBound)
    (hclosed : t.ClosedBounds) : (letterMap t.typeVars letters).KeepsBounds t := by
  intro p hp
  obtain ⟨q, hq, hlookup, hback⟩ := h.lookup_letterMap hname hp
  refine ⟨q, hlookup, ?_⟩
  -- The letter and the variable stand at the same place.
  have hpair : (q, p) ∈ letters.zip t.typeVars := by
    obtain ⟨x, hx, hxname, hxp⟩ := Subst.mem_of_lookup_ofList hback
    rw [List.zip_map_right] at hx
    obtain ⟨⟨r, v⟩, hrv, rfl⟩ := List.mem_map.mp hx
    obtain rfl : v = p := by simpa using hxp
    obtain rfl : r = q := List.inj_on_of_nodup_map h.nodup (List.of_mem_zip hrv).1 hq hxname
    exact hrv
  have hself : p.bound.map (Ty.subst (letterMap t.typeVars letters)) = p.bound := by
    refine (Option.map_congr fun b hb => ?_).trans Option.map_id'
    exact Ty.subst_of_openParams_eq_nil (Ty.openParams_eq_nil (hclosed p hp b hb)) _
  rw [hself, hbounds _ hpair, TypeParam.closedBound_eq_bound (hclosed p hp)]

/-- The receiver and the member that a class for the type gives are well bounded, the member if no bound of a
variable mentions a variable. -/
structure Ty.BoundsKept (t receiver member : Ty) : Prop where
  receiver : receiver.WellBounded
  member : t.ClosedBounds → member.WellBounded

namespace Gen

/-- **A class for a well-bounded type keeps bounds.** -/
theorem declareMatching_wellBounded (he : e.Keeps True R Q) (hs : s.source.pool.Sound) (hname : t.Nameable)
    (hscoped : t.Scoped) (ht : t.WellBounded) :
    (declareMatching e t asField).Yields (Keeps True Q) s fun r _ => t.BoundsKept r.1 r.2 := by
  unfold declareMatching
  have hletters : (abstractVariables t.typeVars [] ∅ []).Yields OnlyDraws s fun r _ =>
      Lettered t.typeVars [] r.2 ∧ r.1 = letterMap t.typeVars r.2 ∧
        ∀ x ∈ r.2.zip t.typeVars, x.1.bound = x.2.closedBound := by
    refine (((abstractVariables_yields List.nodup_nil).and abstractVariables_bounds).weaken fun _ h => h.1).mono ?_
    rintro ⟨m, params⟩ s' - ⟨⟨letters, hletters, hparams, hmap⟩, letters', hparams', hbounds⟩
    obtain rfl : params = letters := hparams
    obtain rfl : params = letters' := hparams'
    exact ⟨hletters, hmap, hbounds⟩
  refine Yields.bind (Yields.of_onlyDraws hletters) fun r s₁ _ h₁ => ?_
  obtain ⟨⟨stream, rfl⟩, hletters, hmap, hbounds⟩ := h₁
  refine (genClassDecl_yields he).bind fun c s₂ _ hmade => .pure ?_
  obtain ⟨-, hgiven, -⟩ := hmade trivial hs (by cases asField <;> nofun)
  have hcparams : c.typeParams = r.2 := hgiven r.2 (by cases asField <;> rfl)
  refine ⟨?_, fun hclosed => ?_⟩
  · rw [hletters.length_eq hname, List.take_length]
    refine ClassDecl.wellBounded_receiverFor (fun v hv => ?_) (hcparams ▸ hbounds)
    have hoccurs := Ty.mem_typeVars.mp hv
    exact ⟨ht.of_occurs hoccurs, hscoped.of_occurs hoccurs⟩
  · rw [hmap]
    exact ht.subst hscoped (hletters.keepsBounds hname hbounds hclosed)

end Gen

/-- **A class that is made for a type keeps the bounds that depend on nothing.** In every reachable session,
for every stream and every well-bounded type whose variables can be told apart: if the operation gives a
receiver and a member, then the receiver is well bounded, and so is the member in the class, if no bound of a
variable mentions a variable. -/
theorem Session.Reachable.wellBounded_genMatchingClass {n : Nat} (h : s.Reachable) (stream : Stream)
    (hname : t.Nameable) (hscoped : t.Scoped) (ht : t.WellBounded)
    (hrun : (genMatchingClass (Engine.layers n) t asField).runIn (s.atStream stream) = (.ok (receiver, member), s')) :
    t.BoundsKept receiver member := by
  have hdeclare : (declareMatching (Engine.layers n) t asField).Yields _ (s.atStream stream)
      fun r _ => t.BoundsKept r.1 r.2 :=
    declareMatching_wellBounded (Engine.layers_restoring n) h.wellTyped.pool hname hscoped ht
  have hmatching : (genMatchingClass (Engine.layers n) t asField).Yields (Keeps True SameConfig) (s.atStream stream)
      fun r _ => t.BoundsKept r.1 r.2 := by
    rw [genMatchingClass_eq]
    refine hdeclare.bind fun r s₁ _ hr => ?_
    unfold requireSeen
    split
    · exact .pure hr
    · exact .throw
  exact (hmatching.of_run hrun).2 _ rfl

/-- A rack of a variable and a narrower one. The narrower one is bounded by the other, so both letters have the
bound of that, and in the class the second letter is not within the first. -/
example :
    let number := Language.kotlin.numberType
    let v : TypeParam := ⟨"V", .invariant, some number⟩
    let w : TypeParam := ⟨"W", .invariant, some (.param v)⟩
    let t := rack.apply [.param v, .param w]
    let a : TypeParam := ⟨"A", .invariant, v.closedBound⟩
    let b : TypeParam := ⟨"B", .invariant, w.closedBound⟩
    t.Scoped ∧ t.WellBounded ∧ ¬(t.subst (letterMap t.typeVars [a, b])).WellBounded := by
  intro number v w t a b
  have hnumber : number.Scoped :=
    .builtin (List.forall_mem_singleton.mpr (.builtin nofun nofun)) (by decide +kernel)
  have hv : (Ty.param v).Scoped := .param fun _ h => by cases h; exact hnumber
  have hw : (Ty.param w).Scoped := .param fun _ h => by cases h; exact hv
  have hvb : (Ty.param v).WellBounded := .param fun _ h => by cases h; exact .builtin
  have hwb : (Ty.param w).WellBounded := .param fun _ h => by cases h; exact hvb
  refine ⟨.applied ⟨by decide +kernel, by decide +kernel⟩ rfl ?_ ?_ nofun, .applied ?_ ?_, fun h => ?_⟩
  · exact List.forall_mem_cons.mpr ⟨hv, List.forall_mem_singleton.mpr hw⟩
  · refine List.forall_mem_cons.mpr ⟨?_, List.forall_mem_singleton.mpr ?_⟩
    · intro _ h
      cases h
      exact hnumber
    · intro _ h
      cases h
      exact .param fun _ h => by cases h; exact hnumber
  · exact List.forall_mem_cons.mpr ⟨hvb, List.forall_mem_singleton.mpr hwb⟩
  · refine List.forall_mem_cons.mpr ⟨?_, List.forall_mem_singleton.mpr ?_⟩
    · exact (TypeParam.admits_iff_isSubtype rfl).mpr (by decide +kernel)
    · exact (TypeParam.admits_iff_isSubtype rfl).mpr (by decide +kernel)
  · have hmember : t.subst (letterMap t.typeVars [a, b]) = rack.apply [.param a, .param b] := by decide +kernel
    rw [hmember] at h
    cases h with
    | applied _ hadmits =>
      have hsecond := hadmits (rack.params[1], .param b) (by decide +kernel)
      exact absurd ((TypeParam.admits_iff_isSubtype rfl).mp hsecond) (by decide +kernel)

end ProgramGen

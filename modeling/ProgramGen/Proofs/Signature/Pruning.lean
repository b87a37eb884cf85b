import ProgramGen.Proofs.Frame.Restored
import ProgramGen.Proofs.Generation.Signature
import ProgramGen.Proofs.Scope.Lookup

/-!
# Unused type parameters

A type parameter that a signature mentions nowhere is dropped, and unregistered in the scope of the
function. What is kept is kept as it is: where a type parameter occurs, its bound occurs with it, so
nothing that is used depends on something that is dropped. All type parameters of the scope are taken out
for that and those that are kept are put back, which leaves the same ones in another order.
-/

namespace ProgramGen

open Session Gen

variable {s : Session} {ns : Namespace} {sig sig' : Signature} {p q : TypeParam} {ps qs : List TypeParam}
variable {m : Subst} {n : String} {l : Language} {c : Context}

/-! ## What a signature mentions -/

/-- The name of a type parameter occurs in the type, perhaps in a bound. -/
def Ty.Mentions (t : Ty) (n : String) : Prop := ∃ q, t.Occurs q ∧ q.name = n

/-- The name of a type parameter occurs in the type of a parameter or in the result type. -/
def Signature.Mentions (sig : Signature) (n : String) : Prop :=
  ∃ t ∈ sig.ret :: sig.params.map (·.ty), t.Mentions n

/-- No two type parameters have one name, and where one occurs it has the bound that it is declared with. -/
structure Signature.Coherent (sig : Signature) : Prop where
  distinct : (sig.typeParams.map (·.name)).Nodup
  declared : ∀ t ∈ sig.ret :: sig.params.map (·.ty), ∀ q, t.Occurs q →
    ∀ p ∈ sig.typeParams, q.name = p.name → q.bound = p.bound

instance (sig : Signature) : Decidable sig.Coherent :=
  decidable_of_iff ((sig.typeParams.map (·.name)).Nodup ∧
      ∀ t ∈ sig.ret :: sig.params.map (·.ty), ∀ q ∈ t.typeVars,
        ∀ p ∈ sig.typeParams, q.name = p.name → q.bound = p.bound)
    ⟨fun h => ⟨h.1, fun t ht q hq => h.2 t ht q (Ty.mem_typeVars.mpr hq)⟩,
      fun h => ⟨h.distinct, fun t ht q hq => h.declared t ht q (Ty.mem_typeVars.mp hq)⟩⟩

/-- What occurs in the bound of a type parameter that is mentioned is mentioned too. -/
theorem Signature.Coherent.mentions_bound (h : sig.Coherent) (hp : p ∈ sig.typeParams)
    (hmentioned : sig.Mentions p.name) {b : Ty} (hb : p.bound = some b) (hn : b.Mentions n) : sig.Mentions n := by
  obtain ⟨t, ht, q, hq, hname⟩ := hmentioned
  obtain ⟨r, hr, hrn⟩ := hn
  have hbound : q.bound = some b := (h.declared t ht q hq p hp hname).trans hb
  exact ⟨t, ht, r, hq.trans (.bound hbound hr), hrn⟩

/-- What the signature mentions is not replaced. -/
theorem Signature.Mentions.lookup_unused (h : sig.Mentions n) :
    (unusedTypeParams l sig.typeParams sig.params sig.ret).lookup n = none := by
  obtain ⟨t, ht, q, hq, rfl⟩ := h
  refine lookup_unusedTypeParams ?_
  rcases List.mem_cons.mp ht with rfl | ht
  · exact .inl hq
  · obtain ⟨d, hd, rfl⟩ := List.mem_map.mp ht
    exact .inr ⟨d, hd, hq⟩

/-- **A type parameter that is mentioned stays as it is**, its bound included. -/
theorem Signature.Coherent.subst_unused (h : sig.Coherent) (hp : p ∈ sig.typeParams)
    (hmentioned : sig.Mentions p.name) :
    p.subst (unusedTypeParams l sig.typeParams sig.params sig.ret) = p := by
  have hself : (Ty.param p).subst (unusedTypeParams l sig.typeParams sig.params sig.ret) = .param p := by
    refine Ty.subst_of_unbound fun r hr => Signature.Mentions.lookup_unused ?_
    rcases Ty.occurs_param.mp hr with rfl | ⟨b, hb, hr⟩
    · exact hmentioned
    · exact h.mentions_bound hp hmentioned hb ⟨r, hr, rfl⟩
  rw [TypeParam.subst, hself]

/-! ## The scope -/

/-- Type parameters are registered in order, if no name is bound twice by that. -/
theorem Gen.addTypes_runIn (hfree : (((s.context.scope ns).types ++ ps).map (·.name)).Nodup) :
    ∃ c, (ps.forM (addType ns)).runIn s = (.ok (), s.withContext c) ∧
      (c.scope ns).types = (s.context.scope ns).types ++ ps ∧
      (∀ m, c.declarations m = s.context.declarations m) ∧ ∀ m, m ≠ ns → c.scope m = s.context.scope m := by
  induction ps generalizing s with
  | nil => exact ⟨s.context, rfl, (List.append_nil _).symm, fun _ => rfl, fun _ _ => rfl⟩
  | cons p ps ih =>
    have hnew : (s.context.scope ns).types.any (·.name == p.name) = false := by
      rw [List.map_append, List.map_cons] at hfree
      have hdisjoint := (List.nodup_append.mp hfree).2.2
      refine List.any_eq_false.mpr fun q hq => ?_
      simpa using hdisjoint q.name (List.mem_map_of_mem hq) p.name List.mem_cons_self
    have hadd : s.context.addType ns p = .ok (s.context.pushType ns p) := by
      unfold Context.addType Context.pushType
      simp only [hnew, Bool.false_eq_true, if_false]
    have hpushed : ((s.context.pushType ns p).scope ns).types = (s.context.scope ns).types ++ [p] := by
      rw [Context.types_pushType, if_pos rfl]
    obtain ⟨c, hrun, htypes, hdecls, hscope⟩ :=
      ih (s := s.withContext (s.context.pushType ns p)) (by simpa [hpushed] using hfree)
    refine ⟨c, ?_, by simpa [hpushed] using htypes, fun m => ?_, fun m hm => ?_⟩
    · show (addType ns p >>= fun _ => ps.forM (addType ns)).runIn s = _
      rw [runIn_bind, addType, runIn_updateContext, hadd]
      exact hrun
    · rw [hdecls, context_withContext, Context.declarations_pushType]
    · rw [hscope m hm, context_withContext, Context.pushType, Context.scope_set, if_neg (Ne.symm hm)]

namespace Context

/-- Where no name is bound twice, all of a name is gone once one is removed. -/
theorem mem_eraseP_name (hnodup : (qs.map (·.name)).Nodup) :
    q ∈ qs.eraseP (·.name == n) ↔ q ∈ qs ∧ q.name ≠ n := by
  refine ⟨fun hq => ⟨List.mem_of_mem_eraseP hq, ?_⟩, fun ⟨hq, hn⟩ => ?_⟩
  · have hone : qs.countP (·.name == n) ≤ 1 := by
      have := List.nodup_iff_count_le_one.mp hnodup n
      rwa [List.count, List.countP_map] at this
    simpa using Session.not_of_mem_eraseP hone hq
  · exact (List.mem_eraseP_of_neg (by simpa using hn)).mpr hq

theorem mem_foldl_eraseP (hnodup : (qs.map (·.name)).Nodup) :
    q ∈ ps.foldl (fun ts p => ts.eraseP (·.name == p.name)) qs ↔ q ∈ qs ∧ q.name ∉ ps.map (·.name) := by
  induction ps generalizing qs with
  | nil => simp
  | cons p ps ih =>
    rw [List.foldl_cons, ih (hnodup.sublist (List.eraseP_sublist.map _)), mem_eraseP_name hnodup]
    simp [and_assoc]

theorem foldl_eraseP_sublist (ps : List TypeParam) :
    (ps.foldl (fun ts p => ts.eraseP (·.name == p.name)) qs).Sublist qs := by
  induction ps generalizing qs with
  | nil => exact .refl _
  | cons p ps ih => exact ih.trans List.eraseP_sublist

/-- A scope that binds no name twice has the type parameters that it binds. -/
theorem types_own (h : (c.scope ns).DistinctTypes) : c.types ns false = (c.scope ns).types := by
  show merged TypeParam.name (c.scope ns).types = _
  exact merged_eq_self h

end Context

/-- **To take out some type parameters of a scope and put back those that are kept** leaves what was
there without the others, in some order. -/
theorem perm_kept (hnodup : (qs.map (·.name)).Nodup) (hps : ∀ p ∈ ps, p ∈ qs) {kept : List TypeParam}
    (hkept : kept.Sublist ps) (hdistinct : (ps.map (·.name)).Nodup) :
    (ps.foldl (fun ts p => ts.eraseP (·.name == p.name)) qs ++ kept).Perm
      (qs.filter fun q => q ∉ ps ∨ q ∈ kept) := by
  have hrest : (ps.foldl (fun ts p => ts.eraseP (·.name == p.name)) qs).Sublist qs :=
    Context.foldl_eraseP_sublist ps
  have hkeptNodup : kept.Nodup := (hdistinct.sublist (hkept.map _)).of_map
  rw [List.perm_ext_iff_of_nodup]
  · intro q
    simp only [List.mem_append, Context.mem_foldl_eraseP hnodup, List.mem_filter, decide_eq_true_eq]
    constructor
    · rintro (⟨hq, hname⟩ | hq)
      · exact ⟨hq, .inl fun hmem => hname (List.mem_map_of_mem hmem)⟩
      · exact ⟨hps q (hkept.subset hq), .inr hq⟩
    · rintro ⟨hq, hnot | hq'⟩
      · refine .inl ⟨hq, fun hname => hnot ?_⟩
        obtain ⟨p, hp, hpq⟩ := List.mem_map.mp hname
        exact List.inj_on_of_nodup_map hnodup (hps p hp) hq hpq ▸ hp
      · exact .inr hq'
  · refine (hnodup.of_map.sublist hrest).append hkeptNodup fun q hq hq' => ?_
    exact ((Context.mem_foldl_eraseP hnodup).mp hq).2 (List.mem_map_of_mem (hkept.subset hq'))
  · exact hnodup.of_map.filter _

/-- **A scope is given the type parameters that are kept**: all are taken out of it, and those are put
back. What else the scope binds stays, and so do all other scopes. -/
theorem Gen.rebindTypes_runIn {kept : List TypeParam} (hscope : (s.context.scope ns).DistinctTypes)
    (hps : ∀ p ∈ ps, p ∈ s.context.types ns false) (hdistinct : (ps.map (·.name)).Nodup)
    (hkept : kept.Sublist ps) :
    ∃ c, (kept.forM (addType ns)).runIn
          (s.withContext (ps.foldl (fun c p => c.removeType ns p.name) s.context)) = (.ok (), s.withContext c) ∧
      (c.types ns false).Perm ((s.context.types ns false).filter fun q => q ∉ ps ∨ q ∈ kept) ∧
      (∀ m, c.declarations m = s.context.declarations m) ∧ ∀ m, m ≠ ns → c.scope m = s.context.scope m := by
  have htypes := Context.types_own hscope
  rw [htypes] at hps ⊢
  obtain ⟨hremoved, hdecls, hother⟩ := @Context.scope_removeTypes ns s.context ps
  generalize ps.foldl (fun c p => c.removeType ns p.name) s.context = removed at hremoved hdecls hother
  have hperm := perm_kept hscope hps hkept hdistinct
  rw [← hremoved] at hperm
  have hfree : (((removed.scope ns).types ++ kept).map (·.name)).Nodup :=
    (hperm.map _).nodup_iff.mpr (hscope.sublist (List.filter_sublist.map _))
  obtain ⟨c, hrun, hbound, hdecls', hother'⟩ := addTypes_runIn (s := s.withContext removed) hfree
  rw [context_withContext] at hbound hdecls' hother'
  refine ⟨c, hrun, ?_, fun m => (hdecls' m).trans (hdecls m), fun m hm => (hother' m hm).trans (hother m hm)⟩
  · rw [Context.types_own (hbound ▸ hfree : ((c.scope ns).types.map (·.name)).Nodup), hbound]
    exact hperm

/-! ## Pruning -/

/-- What a signature becomes: some of its type parameters are gone, those that it does not mention. -/
structure Signature.PrunesTo (sig sig' : Signature) : Prop where
  /-- What is kept is kept as it is, and in order. -/
  kept : sig'.typeParams.Sublist sig.typeParams
  mentioned : ∀ p ∈ sig'.typeParams, sig'.Mentions p.name
  /-- What is gone is mentioned nowhere, and in no bound. -/
  gone : ∀ p ∈ sig.typeParams, p ∉ sig'.typeParams → ¬sig'.Mentions p.name ∧
    ∀ q ∈ sig'.typeParams, ∀ b ∈ q.bound, ¬b.Mentions p.name
  params : sig'.params = sig.params
  ret : sig'.ret = sig.ret

/-- Exactly the type parameters that are mentioned are kept. -/
theorem Signature.Coherent.prunesTo (h : sig.Coherent) (hparams : sig'.params = sig.params)
    (hret : sig'.ret = sig.ret) (hkept : sig'.typeParams.Sublist sig.typeParams)
    (hiff : ∀ p ∈ sig.typeParams, p ∈ sig'.typeParams ↔ sig.Mentions p.name) : sig.PrunesTo sig' := by
  have hsame : ∀ n, sig'.Mentions n ↔ sig.Mentions n := fun n => by
    unfold Signature.Mentions
    rw [hparams, hret]
  refine ⟨hkept, fun p hp => ?_, fun p hp hgone => ?_, hparams, hret⟩
  · exact (hsame _).mpr ((hiff p (hkept.subset hp)).mp hp)
  · have hnot : ¬sig.Mentions p.name := fun hp' => hgone ((hiff p hp).mpr hp')
    refine ⟨fun hp' => hnot ((hsame _).mp hp'), fun q hq b hb hp' => hnot ?_⟩
    have hq' := hkept.subset hq
    exact h.mentions_bound hq' ((hiff q hq').mp hq) hb hp'

/-- The parameters stay what they were, as the result type does. -/
theorem Signature.params_subst_unused (sig : Signature) :
    (sig.params.map fun p =>
      { p with ty := p.ty.subst (unusedTypeParams l sig.typeParams sig.params sig.ret) }) = sig.params := by
  refine (List.map_congr_left fun p hp => ?_).trans (List.map_id _)
  rw [Ty.subst_of_unbound fun q hq => lookup_unusedTypeParams (.inr ⟨p, hp, hq⟩)]
  cases p
  rfl

/-- **Unused type parameters are dropped without leaving anything behind.** In a scope that binds no name
twice, as operations leave every scope, and in which the type parameters of a coherent signature are
registered, pruning does not fail. Those that are kept are mentioned in the signature, in their order and as
they were; those that are gone are mentioned nowhere any more; and the scope binds what it bound before
without them. -/
theorem pruneTypeParams_correct (hsig : sig.Coherent) (hscope : (s.context.scope ns).DistinctTypes)
    (hregistered : ∀ p ∈ sig.typeParams, p ∈ s.context.types ns false) :
    ∃ sig' c, (pruneTypeParams ns sig).runIn s = (.ok sig', s.withContext c) ∧ sig.PrunesTo sig' ∧
      (c.types ns false).Perm ((s.context.types ns false).filter fun p =>
        p ∉ sig.typeParams ∨ p ∈ sig'.typeParams) ∧
      (∀ m, c.declarations m = s.context.declarations m) ∧ ∀ m, m ≠ ns → c.scope m = s.context.scope m := by
  unfold pruneTypeParams
  rw [runIn_get]
  extract_lets m kept
  have hiff : ∀ p ∈ sig.typeParams, m.contains p = false ↔ sig.Mentions p.name := fun p hp =>
    ⟨occurs_of_not_contains hp, fun h => by rw [Subst.contains, Subst.get?, h.lookup_unused, Option.isSome_none]⟩
  by_cases hempty : m.isEmpty
  -- Nothing is unused.
  · have hall : ∀ p ∈ sig.typeParams, sig.Mentions p.name := fun p hp => by
      refine (hiff p hp).mp ?_
      have hnil : m.entries = [] := List.isEmpty_iff.mp hempty
      simp [Subst.contains, Subst.get?, Subst.lookup, hnil]
    refine ⟨sig, s.context, by rw [if_pos hempty]; rfl, ?_, ?_, fun _ => rfl, fun _ _ => rfl⟩
    · exact hsig.prunesTo rfl rfl (.refl _) fun p hp => iff_of_true hp (hall p hp)
    · rw [List.filter_eq_self.mpr fun p _ => by simp [em']]
  -- What is kept is not changed by the substitution, as it depends on nothing that is gone.
  · have hkept : kept = sig.typeParams.filter fun p => !m.contains p := by
      refine (List.map_congr_left fun p hp => ?_).trans (List.map_id _)
      obtain ⟨hp, hcontains⟩ := List.mem_filter.mp hp
      exact hsig.subst_unused hp ((hiff p hp).mp (by simpa using hcontains))
    have hsublist : kept.Sublist sig.typeParams := hkept ▸ List.filter_sublist
    obtain ⟨c, hrun, hframe⟩ := rebindTypes_runIn hscope hregistered hsig.distinct hsublist
    refine ⟨⟨kept, sig.params.map fun p => { p with ty := p.ty.subst m }, sig.ret.subst m⟩, c, ?_,
      hsig.prunesTo sig.params_subst_unused subst_unusedTypeParams hsublist fun p hp => ?_, hframe⟩
    · rw [if_neg hempty, runIn_bind]
      show (kept.forM (addType ns) >>= fun _ => _).runIn (s.withContext _) = _
      rw [runIn_bind, hrun]
      rfl
    · rw [← hiff p hp]
      simp [hkept, hp]

/-- A chain of three type parameters, each bounded by the one before. -/
def chain : List TypeParam :=
  let t := TypeParam.plain "F_T"
  let u : TypeParam := ⟨"F_U", .invariant, some (.param t)⟩
  [t, u, ⟨"F_V", .invariant, some (.param u)⟩]

/-- A function on the second of the chain uses the first one too, in a bound, but not the last. -/
theorem pruneTypeParams_correct_chain :
    let ns := Namespace.global.child "f"
    let ops := chain.map (Operation.addType ns)
    let s := (Session.start (.ofSeed 7 .kotlin) {} .kotlin).withContext (.after ops)
    let u : TypeParam := ⟨"F_U", .invariant, some (.param (.plain "F_T"))⟩
    let sig : Signature := ⟨chain, [⟨"x", .param u, none⟩], Language.kotlin.integerType⟩
    sig.Coherent ∧ (s.context.scope ns).DistinctTypes ∧ (∀ p ∈ sig.typeParams, p ∈ s.context.types ns false) ∧
      ∃ sig' c, (pruneTypeParams ns sig).runIn s = (.ok sig', s.withContext c) ∧ sig.PrunesTo sig' ∧
        (c.types ns false).Perm ((s.context.types ns false).filter fun p =>
          p ∉ sig.typeParams ∨ p ∈ sig'.typeParams) ∧
        (∀ m, c.declarations m = s.context.declarations m) ∧ ∀ m, m ≠ ns → c.scope m = s.context.scope m := by
  intro ns ops s u sig
  have hcontext : s.context = .after ops := Session.context_withContext _ _
  clear_value s
  have hsig : sig.Coherent := by decide +kernel
  have hbound : s.context.scope ns = Bindings.left ops ns := hcontext ▸ Context.scope_after ops
  have hscope : (s.context.scope ns).DistinctTypes := hbound ▸ Bindings.distinctTypes_left ops ns
  have hregistered : ∀ p ∈ sig.typeParams, p ∈ s.context.types ns false := by
    rw [Context.types_own hscope, hbound]
    decide +kernel
  exact ⟨hsig, hscope, hregistered, pruneTypeParams_correct hsig hscope hregistered⟩

end ProgramGen

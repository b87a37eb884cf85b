import ProgramGen.Proofs.Names.Pool
import ProgramGen.Proofs.Run.Always
import ProgramGen.Proofs.Run.Context

/-!
# Scoped state

What an operation gives back as it found it. The frame and the classes in the making are what they
were. A variable that is bound anew has a name that was drawn for it and is bound once: a binding
that narrows another variable in a branch would be a second one of its name, so none of them is
left behind.
-/

namespace ProgramGen

namespace Session

variable {s s' s₀ s₁ s₂ : Session} {ns m : Namespace} {n : String} {C : Context} {d : Decl}
variable {v : VarDecl}

/-- The scope binds a variable of the name; parameters and fields are none. -/
def BindsVar (s : Session) (ns : Namespace) (n : String) : Prop :=
  ∃ v : VarDecl, .var v ∈ s.context.declarations ns ∧ v.name = n

/-- How many variables, parameters and fields of the name a scope binds. -/
def countNamed (s : Session) (ns : Namespace) (n : String) : Nat :=
  (s.context.declarations ns).countP (Bindings.isNamed .var n)

/-- What is given back as it was found, seen from a session with a sound pool. -/
structure Restored (s s' : Session) : Prop where
  frame : s'.frame = s.frame
  unfinished : s'.unfinished = s.unfinished
  /-- A variable that is bound anew has a name that was drawn. -/
  drawn : s.source.pool.Sound → ∀ ns n, s'.BindsVar ns n →
    s.BindsVar ns n ∨ (s.source.pool.Offers n ∧ ¬s'.source.pool.Offers n)
  /-- Of the scopes that bind a name anew there is only one. -/
  once : s.source.pool.Sound → ∀ ns m n, s'.BindsVar ns n → s'.BindsVar m n →
    s.BindsVar ns n ∨ s.BindsVar m n ∨ ns = m

/-- An operation restores what is scoped, and it keeps the pool sound and each name bound once. -/
structure Restores (s s' : Session) : Prop extends s.Restored s' where
  pool : s.source.pool.Sound → s'.source.pool.Sound
  offers : s.source.pool.Sound → ∀ n, s'.source.pool.Offers n → s.source.pool.Offers n
  counts : ∀ ns n, s.countNamed ns n ≤ 1 → s'.countNamed ns n ≤ 1

/-! ## Steps that bind no variable -/

/-- No variable is bound that was not bound before, and nothing is drawn but what the pool gives. -/
theorem Restores.of_binds (hframe : s'.frame = s.frame) (hunfinished : s'.unfinished = s.unfinished)
    (hbinds : ∀ ns n, s'.BindsVar ns n → s.BindsVar ns n)
    (hpool : s.source.pool.Sound → s'.source.pool.Sound ∧ ∀ n, s'.source.pool.Offers n → s.source.pool.Offers n)
    (hcounts : ∀ ns n, s.countNamed ns n ≤ 1 → s'.countNamed ns n ≤ 1) : s.Restores s' where
  frame := hframe
  unfinished := hunfinished
  drawn _ ns n h := .inl (hbinds ns n h)
  once _ ns _ n h _ := .inl (hbinds ns n h)
  pool hs := (hpool hs).1
  offers hs := (hpool hs).2
  counts := hcounts

/-- A step that the symbol table does not see. -/
theorem Restores.of_context (hframe : s'.frame = s.frame) (hunfinished : s'.unfinished = s.unfinished)
    (hcontext : s'.context = s.context)
    (hpool : s.source.pool.Sound → s'.source.pool.Sound ∧ ∀ n, s'.source.pool.Offers n → s.source.pool.Offers n) :
    s.Restores s' := by
  refine .of_binds hframe hunfinished (fun ns n h => ?_) hpool fun ns n h => ?_
  · rwa [BindsVar, hcontext] at h
  · rwa [countNamed, hcontext]

theorem Restores.trans (h : s.Restores s₁) (h' : s₁.Restores s₂) : s.Restores s₂ where
  frame := h'.frame.trans h.frame
  unfinished := h'.unfinished.trans h.unfinished
  drawn hs ns n hn := by
    rcases h'.drawn (h.pool hs) ns n hn with h₁ | ⟨hoffered, hgone⟩
    · refine (h.drawn hs ns n h₁).imp_right fun ⟨hoffered, hgone⟩ => ⟨hoffered, fun h₂ => ?_⟩
      exact hgone (h'.offers (h.pool hs) n h₂)
    · exact .inr ⟨h.offers hs n hoffered, hgone⟩
  once hs ns m n hns hm := by
    -- A name that the first step has drawn is not drawn by the second one.
    have hboth : ∀ {ns m}, s₁.BindsVar ns n → s₂.BindsVar m n → s.BindsVar ns n ∨ s₁.BindsVar m n := by
      intro ns m hns hm
      rcases h.drawn hs ns n hns with hns | ⟨-, hgone⟩
      · exact .inl hns
      · exact .inr ((h'.drawn (h.pool hs) m n hm).resolve_right fun h => hgone h.1)
    rcases h'.once (h.pool hs) ns m n hns hm with h₁ | h₁ | heq
    · rcases hboth h₁ hm with hns | hm
      · exact .inl hns
      · exact h.once hs ns m n h₁ hm
    · rcases hboth h₁ hns with hm | hns
      · exact .inr (.inl hm)
      · exact h.once hs ns m n hns h₁
    · exact .inr (.inr heq)
  pool hs := h'.pool (h.pool hs)
  offers hs n hn := h.offers hs n (h'.offers (h.pool hs) n hn)
  counts ns n hn := h'.counts ns n (h.counts ns n hn)

theorem Restores.atStream (s : Session) (stream : Stream) : s.Restores (s.atStream stream) :=
  .of_context rfl rfl rfl fun hs => ⟨hs, fun _ h => h⟩

instance : Restoring Restores where
  refl _ := .of_context rfl rfl rfl fun hs => ⟨hs, fun _ h => h⟩
  trans _ _ _ := .trans
  draw := .atStream
  frame _ _ _ _ h := { h with frame := rfl }
  unfinished _ _ _ h := { h with unfinished := rfl }

/-! ## Changes of the symbol table -/

/-- A change of the symbol table. -/
theorem Restores.withContext (hbinds : ∀ ns n, (s.withContext C).BindsVar ns n → s.BindsVar ns n)
    (hcounts : ∀ ns n, s.countNamed ns n ≤ 1 → (s.withContext C).countNamed ns n ≤ 1) :
    s.Restores (s.withContext C) :=
  .of_binds rfl rfl hbinds (fun hs => ⟨hs, fun _ h => h⟩) hcounts

/-- Where the name is free, a scope binds it once when it is bound. -/
theorem countNamed_push (hfree : (s.context.scope m).binds d.kind d.name = false)
    (h : s.countNamed ns n ≤ 1) : (s.withContext (s.context.push m d)).countNamed ns n ≤ 1 := by
  unfold countNamed at h ⊢
  rw [context_withContext, Context.declarations, Context.push, Context.scope_set]
  split
  · subst m
    rw [List.countP_append, List.countP_singleton]
    split
    · rename_i hnamed
      simp only [Bindings.isNamed, Bool.and_eq_true, beq_iff_eq] at hnamed
      have hzero : (s.context.scope ns).decls.countP (Bindings.isNamed .var n) = 0 := by
        rw [List.countP_eq_zero]
        rw [Bindings.binds, List.any_eq_false, hnamed.1, hnamed.2] at hfree
        exact hfree
      omega
    · exact h
  · exact h

theorem bindsVar_push : (s.withContext (s.context.push m d)).BindsVar ns n ↔
    s.BindsVar ns n ∨ m = ns ∧ ∃ v, d = .var v ∧ v.name = n := by
  simp only [BindsVar, context_withContext, Context.mem_declarations_push]
  constructor
  · rintro ⟨v, hv | ⟨hm, rfl⟩, hn⟩
    · exact .inl ⟨v, hv, hn⟩
    · exact .inr ⟨hm, v, rfl, hn⟩
  · rintro (⟨v, hv, hn⟩ | ⟨hm, v, rfl, hn⟩)
    · exact ⟨v, .inl hv, hn⟩
    · exact ⟨v, .inr ⟨hm, rfl⟩, hn⟩

/-- What is no variable can be registered at any time. -/
theorem Restores.add (hd : ∀ v, d ≠ .var v) (h : s.context.add ns d = .ok C) :
    s.Restores (s.withContext C) := by
  obtain ⟨hfree, rfl⟩ := Context.add_eq_ok h
  refine .withContext (fun m n hn => ?_) fun m n hn => countNamed_push hfree hn
  exact (bindsVar_push.mp hn).resolve_right fun ⟨_, v, hv, _⟩ => hd v hv

/-- **A variable is bound under a name that was drawn for it.** -/
theorem Restores.addVar (h : s.Restores s₁) (hadd : s₁.context.addVar ns (.var v) = .ok C)
    (hname : s.source.pool.Sound → s.source.pool.Offers v.name ∧ ¬s₁.source.pool.Offers v.name)
    (hfree : s.source.pool.Sound → ∀ m, s₁.BindsVar m v.name → s.BindsVar m v.name) :
    s.Restores (s₁.withContext C) := by
  obtain ⟨hunbound, rfl⟩ := Context.add_eq_ok (Context.addVar_eq_ok hadd).2
  have hbinds : ∀ m n, (s₁.withContext (s₁.context.push ns (.var v))).BindsVar m n →
      s₁.BindsVar m n ∨ (m = ns ∧ n = v.name) := by
    intro m n hn
    refine (bindsVar_push.mp hn).imp_right ?_
    rintro ⟨rfl, w, hw, rfl⟩
    cases hw
    exact ⟨rfl, rfl⟩
  exact {
    frame := h.frame
    unfinished := h.unfinished
    pool := h.pool
    offers := h.offers
    drawn hs m n hn := by
      rcases hbinds m n hn with hn | ⟨-, rfl⟩
      · exact h.drawn hs m n hn
      · exact .inr (hname hs)
    once hs m m' n hm hm' := by
      rcases hbinds m n hm with hold | ⟨rfl, hn⟩
      · rcases hbinds m' n hm' with hold' | ⟨rfl, hn⟩
        · exact h.once hs m m' n hold hold'
        · exact .inl (hn ▸ hfree hs m (hn ▸ hold))
      · rcases hbinds m' n hm' with hold' | ⟨rfl, -⟩
        · exact .inr (.inl (hn ▸ hfree hs m' (hn ▸ hold')))
        · exact .inr (.inr rfl)
    counts m n hn := countNamed_push hunbound (h.counts m n hn) }

/-- A change of one declaration that keeps variables, kinds and names. -/
theorem Restores.modify {k : DeclKind} {f : Decl → Decl}
    (hkeep : ∀ d, (f d).kind = d.kind ∧ ((f d).name = d.name ∨ d.kind ≠ .var))
    (hvar : ∀ d v, f d = .var v → ∃ w, d = .var w) :
    s.Restores (s.withContext (s.context.modify ns k n f)) := by
  have hdecls : ∀ m, (s.withContext (s.context.modify ns k n f)).context.declarations m =
      if ns = m then Context.modifyFirst (Bindings.isNamed k n) f (s.context.declarations m)
      else s.context.declarations m := by
    intro m
    rw [context_withContext, Context.declarations, Context.modify, Context.scope_set]
    split
    · subst ns
      rfl
    · rfl
  have hnamed : ∀ n' d, Bindings.isNamed .var n' (f d) = Bindings.isNamed .var n' d := by
    intro n' d
    obtain ⟨hkind, hname | hnot⟩ := hkeep d
    · simp only [Bindings.isNamed, hkind, hname]
    · simp [Bindings.isNamed, hkind, beq_false_of_ne hnot]
  refine .withContext (fun m n' h => ?_) fun m n' h => ?_
  · obtain ⟨v, hv, rfl⟩ := h
    rw [hdecls] at hv
    split at hv
    · rcases Context.mem_modifyFirst hv with hv | ⟨d, hd, -, heq⟩
      · exact ⟨v, hv, rfl⟩
      · obtain ⟨w, rfl⟩ := hvar d v heq.symm
        have hname := (hkeep (.var w)).2.resolve_right fun h => h rfl
        rw [← heq] at hname
        exact ⟨w, hd, hname.symm⟩
    · exact ⟨v, hv, rfl⟩
  · rw [countNamed, hdecls]
    split
    · have hmap := Context.map_modifyFirst (q := Bindings.isNamed k n) (f := f)
        (g := Bindings.isNamed .var n') fun d (_ : d ∈ s.context.declarations m) _ => hnamed n' d
      have hcount := congrArg (List.countP id) hmap
      rw [List.countP_map, List.countP_map] at hcount
      exact Nat.le_trans (Nat.le_of_eq hcount) h
    · exact h

/-! ## Removal -/

/-- The only element of a kind is gone when it is taken out. -/
theorem not_of_mem_eraseP {α : Type} {p : α → Bool} {xs : List α} {a : α} (h : xs.countP p ≤ 1)
    (ha : a ∈ xs.eraseP p) : p a = false := by
  induction xs with
  | nil => cases ha
  | cons x xs ih =>
    rw [List.countP_cons] at h
    rw [List.eraseP_cons] at ha
    by_cases hx : p x
    · rw [if_pos hx] at h
      rw [hx, cond_true] at ha
      exact Bool.eq_false_iff.mpr (List.countP_eq_zero.mp (by omega) a ha)
    · rw [if_neg hx] at h
      rw [Bool.not_eq_true] at hx
      rw [hx, cond_false] at ha
      rcases List.mem_cons.mp ha with rfl | ha
      · exact hx
      · exact ih h ha

/-- **A variable that is bound and removed again leaves nothing behind**, whatever happens in
between. -/
theorem Restores.removeShadow (hadd : s.context.addVar ns (.var v) = .ok C)
    (h : (s.withContext C).Restores s') :
    s.Restores { s' with context := s'.context.removeVar ns v.name } := by
  obtain ⟨hunbound, rfl⟩ := Context.add_eq_ok (Context.addVar_eq_ok hadd).2
  have hsub : ∀ m, (({ s' with context := s'.context.removeVar ns v.name } : Session).context.declarations m).Sublist
      (s'.context.declarations m) := by
    intro m
    show ((s'.context.removeVar ns v.name).scope m).decls.Sublist _
    rw [Context.removeVar, Context.scope_set]
    split
    · subst ns
      exact List.eraseP_sublist
    · exact List.Sublist.refl _
  have hone : s'.countNamed ns v.name ≤ 1 := by
    refine h.counts ns v.name (countNamed_push hunbound (Nat.le_succ_of_le (Nat.le_of_eq ?_)))
    rw [countNamed, List.countP_eq_zero]
    exact List.any_eq_false.mp hunbound
  have hgone : ¬BindsVar { s' with context := s'.context.removeVar ns v.name } ns v.name := by
    rintro ⟨w, hw, hname⟩
    replace hw : Decl.var w ∈ (s'.context.declarations ns).eraseP (Bindings.isNamed .var v.name) := by
      have hremoved : ((s'.context.removeVar ns v.name).scope ns).decls =
          (s'.context.declarations ns).eraseP (Bindings.isNamed .var v.name) := by
        rw [Context.removeVar, Context.scope_set_self]
        rfl
      exact hremoved ▸ hw
    have := not_of_mem_eraseP hone hw
    simp [Bindings.isNamed, Decl.kind, Decl.name, hname] at this
  -- What is bound in the end was bound by the body, and is not the variable itself.
  have hbinds : ∀ m n, BindsVar { s' with context := s'.context.removeVar ns v.name } m n →
      s'.BindsVar m n ∧ ((s.withContext (s.context.push ns (.var v))).BindsVar m n → s.BindsVar m n) := by
    intro m n hn
    obtain ⟨w, hw, hname⟩ := hn
    refine ⟨⟨w, (hsub m).subset hw, hname⟩, fun hpush => (bindsVar_push.mp hpush).resolve_right ?_⟩
    rintro ⟨rfl, v', hv', rfl⟩
    cases hv'
    exact hgone ⟨w, hw, hname⟩
  exact {
    frame := h.frame
    unfinished := h.unfinished
    pool := h.pool
    offers := h.offers
    drawn hs m n hn := (h.drawn hs m n (hbinds m n hn).1).imp_left (hbinds m n hn).2
    once hs m m' n hm hm' :=
      (h.once hs m m' n (hbinds m n hm).1 (hbinds m' n hm').1).imp (hbinds m n hm).2
        (Or.imp_left (hbinds m' n hm').2)
    counts m n hn := by
      exact Nat.le_trans (hsub m).countP_le (h.counts m n (countNamed_push hunbound hn)) }

end Session

end ProgramGen

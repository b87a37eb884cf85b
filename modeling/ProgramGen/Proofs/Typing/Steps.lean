import ProgramGen.Proofs.Typing.Session
import ProgramGen.Synthesis.Class

/-!
# Steps of a well-typed session

The operations that the generator is built from, each for the relation of well-typed sessions: names
that are drawn, what is registered, members of classes, and the scopes that are entered and left.
-/

namespace ProgramGen

namespace Gen

variable {s : Session} {ns : Namespace} {d : Decl} {c : ClassDecl} {p : TypeParam}

/-- A draw of a name takes it out of the pool. -/
theorem word_typed (hs : s.WellTyped) : word.Yields Session.Typed s fun w s' =>
    s.source.pool.Offers w ∧ ¬s'.source.pool.Offers w ∧ s'.context = s.context := by
  have hdrawn := WordPool.drawn_word hs.pool s.source.stream
  have hrun : word.runIn s = (.ok s.source.word.1, { s with source := s.source.word.2 }) := rfl
  refine .of_eq hrun ?_ ?_
  · intro _
    refine ⟨⟨rfl, rfl, hdrawn.offers, fun c hc => ⟨c, hc, rfl⟩⟩, hdrawn.sound, hs.rooted,
      hs.over_types, hs.over_params, hs.headers, hs.distinct, fun m hm => hs.reserved m ?_,
      hs.distinct_params⟩
    rcases hm with rfl | ⟨w, hw, rfl⟩
    · exact .inl rfl
    · exact .inr ⟨w, hdrawn.offers w hw, rfl⟩
  · intro w hw
    cases hw
    exact ⟨hdrawn.offered, hdrawn.gone, rfl⟩

theorem className_typed (hs : s.WellTyped) : className.Yields Session.Typed s fun n s' =>
    ∃ w, n = capitalize w ∧ s.source.pool.Offers w ∧ ¬s'.source.pool.Offers w ∧
      s'.context = s.context := by
  obtain ⟨hR, hQ⟩ := word_typed hs
  have hrun : className.runIn s =
      (.ok (capitalize s.source.word.1), { s with source := s.source.word.2 }) := rfl
  refine .of_eq hrun hR fun n hn => ?_
  cases hn
  exact ⟨_, rfl, hQ _ rfl⟩

/-- What may be registered beside classes. -/
theorem addDecl_typed (hd : d.kind ≠ .cls) (ht : ∀ t ∈ d.types, t.Over s.vocabulary) :
    (addDecl ns d).Yields Session.Typed s fun _ _ => True := by
  refine .updateContext (refl_of _ s) fun c hc => ⟨?_, trivial⟩
  obtain ⟨-, rfl⟩ := Context.add_eq_ok hc
  refine Session.typed_set (fun h => ?_) (fun d' hd' => ?_) (.inl (List.Sublist.refl _))
  · have hnone : [d].filterMap Context.asClass? = [] := by
      cases d <;> first | rfl | exact absurd rfl hd
    rw [List.filterMap_append, hnone, List.append_nil, Session.classes_eq, h]
    rfl
  · rcases List.mem_append.mp hd' with h | h
    · exact .inl h
    · exact .inr (List.mem_singleton.mp h ▸ ht)

theorem addVar_typed (ht : ∀ t ∈ d.types, t.Over s.vocabulary) :
    (updateContext (·.addVar ns d)).Yields Session.Typed s fun _ _ => True := by
  by_cases hd : d.kind = .var
  · have hadd : (fun C : Context => C.addVar ns d) = fun C => C.add ns d := by
      funext C
      rw [Context.addVar, if_pos hd]
    rw [hadd]
    exact addDecl_typed (by simp [hd]) ht
  · refine .updateContext (refl_of _ s) fun c hc => ?_
    exact absurd (Context.addVar_eq_ok hc).1 hd

theorem addType_typed (hns : ¬s.Reserved ns) (hp : (Ty.param p).Over s.vocabulary) :
    (addType ns p).Yields Session.Typed s fun _ s' =>
      s' = s.withContext (s.context.pushType ns p) := by
  refine .updateContext (refl_of _ s) fun c hc => ?_
  obtain ⟨hfree, rfl⟩ := Context.addType_eq_ok hc
  refine ⟨fun hs => Session.typed_set (fun h => ?_) (fun d hd => .inl hd)
    (.inr ⟨hns, fun q hq => ?_, ?_⟩) hs, rfl⟩
  · rw [Session.classes_eq, h]
    rfl
  · rcases List.mem_append.mp hq with h | h
    · exact hs.over_params ns q h
    · exact List.mem_singleton.mp h ▸ hp
  · rw [List.map_append]
    refine List.Nodup.append (hs.distinct_params ns) (List.nodup_singleton _) ?_
    simpa using hfree

/-- **A declared class enters the table.** -/
theorem addClass_typed (hover : ∀ t ∈ c.types, t.Over s.vocabulary) (hc : c.HeaderOk s.language) :
    (addDecl .global (.cls c)).Yields Session.Typed s fun _ s' => c ∈ s'.classes := by
  refine .updateContext (refl_of _ s) fun C hC => ?_
  obtain ⟨hfree, rfl⟩ := Context.add_eq_ok hC
  have hclasses : (s.withContext (s.context.push .global (.cls c))).classes = s.classes ++ [c] :=
    Context.classes_push_global
  have hgrows : s.Grows (s.withContext (s.context.push .global (.cls c))) := by
    refine ⟨rfl, rfl, fun _ h => h, fun d hd => ⟨d, ?_, rfl⟩⟩
    rw [hclasses]
    exact List.mem_append_left _ hd
  refine ⟨fun hs => ⟨hgrows, hs.pool, hs.rooted, ?_, ?_, ?_, ?_, ?_, ?_⟩, ?_⟩
  · intro m d hd t ht
    refine hgrows.over ?_
    rcases Context.mem_declarations_push.mp hd with hd | ⟨-, rfl⟩
    · exact hs.over_types m d hd t ht
    · exact hover t ht
  · intro m p hp
    rw [Session.context_withContext, Context.types_push] at hp
    exact hgrows.over (hs.over_params m p hp)
  · intro d hd
    rw [hclasses] at hd
    rcases List.mem_append.mp hd with hd | hd
    · exact hs.headers d hd
    · exact List.mem_singleton.mp hd ▸ hc
  · rw [hclasses, List.map_append]
    refine List.Nodup.append hs.distinct (List.nodup_singleton _) ?_
    simp only [List.map_cons, List.map_nil, List.disjoint_singleton]
    intro hname
    obtain ⟨d, hd, hdc⟩ := List.mem_map.mp hname
    have hbinds := List.any_eq_false.mp hfree (.cls d) (Context.mem_classes_global.mp hd)
    simp [Bindings.isNamed, Decl.kind, Decl.name, hdc] at hbinds
  · intro m hm
    rw [Session.context_withContext, Context.types_push]
    exact hs.reserved m hm
  · intro m
    rw [Session.context_withContext, Context.types_push]
    exact hs.distinct_params m
  · rw [hclasses]
    simp

/-! ## Scopes -/

theorem inFrame_typed {α : Type} {change : Frame → Frame} {x : Gen α} {Q : α → Session → Prop}
    (hs : s.WellTyped) (hns : (change s.frame).ns.segments ≠ [])
    (h : ∀ s', s' = { s with frame := change s.frame } → s'.WellTyped →
      s'.vocabulary = s.vocabulary → x.Yields Session.Typed s' fun a s'' =>
        Q a { s'' with frame := s.frame }) :
    (inFrame change x).Yields Session.Typed s Q := by
  refine .inFrame (h _ rfl (hs.withFrame hns) rfl) (fun s' hs' _ => ?_) fun a s' _ ha => ha
  obtain ⟨hgrows, hout⟩ := hs' (hs.withFrame hns)
  exact ⟨⟨hgrows.language, rfl, hgrows.offers, hgrows.headers⟩, hout.withFrame hs.rooted⟩

theorem nested_typed {α : Type} {levels : Nat} {x : Gen α} {Q : α → Session → Prop}
    (hs : s.WellTyped)
    (h : ∀ s', s'.WellTyped → s'.vocabulary = s.vocabulary →
      x.Yields Session.Typed s' fun a s'' => Q a { s'' with frame := s.frame }) :
    (nested levels x).Yields Session.Typed s Q :=
  inFrame_typed hs hs.rooted fun s' _ => h s'

theorem whileUnfinished_typed {α : Type} {name : String} {x : Gen α} {Q : α → Session → Prop}
    (hs : s.WellTyped)
    (h : x.Yields Session.Typed { s with unfinished := name :: s.unfinished } fun a s' =>
      Q a { s' with unfinished := s.unfinished }) :
    (whileUnfinished name x).Yields Session.Typed s Q := by
  refine .whileUnfinished h (fun s' hs' _ => ?_) fun a s' _ ha => ha
  obtain ⟨hgrows, hout⟩ := hs' hs.withUnfinished
  exact ⟨⟨hgrows.language, hgrows.frame, hgrows.offers, hgrows.headers⟩, hout.withUnfinished⟩

theorem withShadow_typed {α : Type} {x : Gen α} {Q : α → Session → Prop} (hs : s.WellTyped)
    (ht : ∀ t ∈ d.types, t.Over s.vocabulary)
    (h : ∀ s', s.Grows s' → s'.WellTyped → x.Yields Session.Typed s' fun a s'' =>
      Q a (s''.withContext (s''.context.removeVar ns d.name))) :
    (withShadow ns d x).Yields Session.Typed s Q := by
  unfold withShadow
  refine (addVar_typed ht).bind fun _ s₁ h₁ _ => ?_
  obtain ⟨hgrows, hs₁⟩ := h₁ hs
  obtain ⟨hR, hQ⟩ := h s₁ hgrows hs₁
  exact ⟨trans_of Session.Typed hR Session.typed_removeVar, hQ⟩

/-! ## Members -/

/-- A member enters its class. -/
theorem addMember_typed {name : String} (hs : s.WellTyped)
    (ht : ∀ t ∈ d.types, t.Over s.vocabulary) :
    (addMember name d).Yields Session.Typed s fun _ _ => True := by
  unfold addMember
  refine .get ?_
  split
  · exact .throw
  · split
    · refine .modifyContext (Session.typed_modifyClass (fun _ => rfl) fun c hc _ => ?_) trivial
      refine hs.members_over hc rfl (fun f hf => ?_) fun f hf => .inl hf
      refine (List.mem_append.mp hf).imp_right fun hf => ht _ ?_
      rw [List.mem_singleton.mp hf]
      exact List.mem_singleton_self _
    · refine .modifyContext (Session.typed_modifyClass (fun _ => rfl) fun c hc _ => ?_) trivial
      refine hs.members_over hc rfl (fun f hf => .inl hf) fun f hf => ?_
      refine (List.mem_append.mp hf).imp_right fun hf => ?_
      rw [List.mem_singleton.mp hf]
      exact ht
    · exact .throw

/-- A member, or a declaration of another scope, is registered. -/
theorem attach_typed (hs : s.WellTyped) (hd : d.kind ≠ .cls)
    (ht : ∀ t ∈ d.types, t.Over s.vocabulary) :
    (attach ns d).Yields Session.Typed s fun _ _ => True := by
  unfold attach
  extract_lets register
  have hregister : ∀ s', s.Grows s' → (register ()).Yields Session.Typed s' fun _ _ => True :=
    fun s' h => addDecl_typed hd fun t hmem => h.over (ht t hmem)
  split
  · exact (addMember_typed hs ht).bind fun _ s₁ h₁ _ => hregister s₁ (h₁ hs).1
  · exact hregister s (.refl s)

/-- A completed function takes the place of what was registered of it. -/
theorem updateFunc_typed {f : FuncDecl} (hs : s.WellTyped) (ht : ∀ t ∈ f.types, t.Over s.vocabulary) :
    (updateFunc ns f).Yields Session.Typed s fun _ _ => True := by
  unfold updateFunc
  refine .get ?_
  extract_lets update
  have hupdate : (update ()).Yields Session.Typed s fun _ _ => True := by
    refine Yields.bind (Q := fun _ _ => True)
      (.modifyContext (Session.typed_modifyFunc ht) trivial) fun _ s₁ h₁ _ => ?_
    obtain ⟨hgrows, hs₁⟩ := h₁ hs
    split
    · exact .pure trivial
    · refine .modifyContext (Session.typed_modifyClass (fun _ => rfl) fun c hc _ => ?_) trivial
      refine hs₁.members_over hc rfl (fun g hg => .inl hg) fun g hg => ?_
      refine (Context.mem_modifyFirst hg).imp_right fun ⟨_, _, _, h⟩ t htg => ?_
      exact hgrows.over (ht t (h ▸ htg))
  split
  · exact .throw
  · exact hupdate

end Gen

end ProgramGen

import ProgramGen.Proofs.Binding.Unification
import ProgramGen.Proofs.Frame.Expressions
import ProgramGen.Proofs.Typing.Reachable

/-!
# A class for a type shows its member as requested

The variables of the type get letters, which become the parameters of a new class, and the member is
asked for with the letters in their place. The class then gets all its other members, for which more
classes may be made; but it only grows, so in the end it still has the member. Applied to the variables,
it gives back to each letter the variable that it stands for, whatever the letters are called.
-/

namespace ProgramGen

open Session Gen

variable {s s' : Session} {e : Engine} {t : Ty} {receiver member : Ty} {asField : Bool} {c : ClassDecl}
variable {R Q : Session → Session → Prop} [Oblivious R] [Oblivious Q] [Encloses R Q]

/-- The class of the receiver has the member, which mentions no variables but its parameters, and the
receiver is the class applied to the variables of `t`, so that the member is seen with type `t`. -/
structure Session.Matches (s : Session) (t : Ty) (asField : Bool) (receiver member : Ty) (c : ClassDecl) : Prop where
  found : s.class? receiver.name = some c
  declares : if asField then ∃ f ∈ c.fields, f.ty = member else ∃ f ∈ c.funcs, f.ret = member
  own : ∀ p ∈ member.typeVars, p ∈ c.typeParams
  applied : receiver = c.receiverFor t.typeVars
  seen : member.subst receiver.argMap = t

theorem ClassDecl.name_receiverFor (c : ClassDecl) (vars : List TypeParam) : (c.receiverFor vars).name = c.name := by
  unfold receiverFor ClassDecl.type
  split
  · rfl
  · split <;> rfl

/-- What a class answers to is among its functions. -/
theorem ClassDecl.Shows.exists_func {f : FuncDecl} (h : c.Shows (.func f)) : ∃ g ∈ c.funcs, g.ret = f.ret := by
  obtain ⟨g, hg, houtline⟩ := h
  have hret : g.ret = f.ret := by
    simp only [Decl.outline, Decl.func.injEq, FuncDecl.mk.injEq] at houtline
    exact houtline.2.2.1
  exact ⟨g, List.mem_of_find?_eq_some hg, hret⟩

namespace Gen

/-- **A class for a type has the member**, and shows it with that type. -/
theorem declareMatching_yields (he : e.Keeps True R Q) (hs : s.source.pool.Sound) (hname : t.Nameable) :
    (declareMatching e t asField).Yields (Keeps True Q) s fun r s' => ∃ c, s'.Matches t asField r.1 r.2 c := by
  unfold declareMatching
  refine Yields.bind (Yields.of_onlyDraws (abstractVariables_yields List.nodup_nil)) fun r s₁ _ h₁ => ?_
  obtain ⟨⟨stream, rfl⟩, letters, hletters, hparams, hmap⟩ := h₁
  obtain ⟨m, params⟩ := r
  obtain rfl : params = letters := hparams
  obtain rfl : m = letterMap t.typeVars params := hmap
  refine (genClassDecl_yields he).bind fun c s₂ _ hmade => .pure ⟨c, ?_⟩
  obtain ⟨hfound, hgiven, hanswers⟩ := hmade trivial hs (by cases asField <;> nofun)
  have hcparams : c.typeParams = params := hgiven params (by cases asField <;> rfl)
  have hlength := hletters.length_eq hname
  refine ⟨?_, ?_, fun p hp => ?_, ?_, hletters.subst_argMap hname hcparams⟩
  · rw [c.name_receiverFor]
    exact hfound
  · cases asField with
    | true =>
      obtain ⟨f, hf, hshows⟩ := hanswers.field _ rfl
      exact ⟨f, hshows, hf⟩
    | false =>
      obtain ⟨f, hf, hshows⟩ := hanswers.method _ rfl
      obtain ⟨g, hg, hret⟩ := hshows.exists_func
      exact ⟨g, hg, hret.trans hf⟩
  · exact hcparams ▸ hletters.mem_of_occurs hname (Ty.mem_typeVars.mp hp)
  · rw [hlength, List.take_length]

/-- The type that is asked for is seen. -/
theorem requireSeen_eq {x : Ty × Ty} (h : x.2.subst x.1.argMap = t) : requireSeen t x = pure x := by
  unfold requireSeen
  rw [h, Ty.unify?, Subst.unifyWith_self]

end Gen

/-- **A class that is made for a type shows its member as requested.** In every reachable session, for
every stream and every type whose variables can be told apart, the last check is passed: the operation
ends as it would without the check. And if it gives a receiver and a member, then the class of the receiver
has a field of that type, or a method with that result; the member mentions no variables but parameters of
the class, the receiver is the class applied to the variables of the type, and through it the member is
seen with the type itself. -/
theorem Session.Reachable.matches_genMatchingClass {n : Nat} (h : s.Reachable) (stream : Stream)
    (hname : t.Nameable) (asField : Bool) :
    (genMatchingClass (Engine.layers n) t asField).runIn (s.atStream stream) =
        (declareMatching (Engine.layers n) t asField).runIn (s.atStream stream) ∧
      ∀ receiver member s',
        (genMatchingClass (Engine.layers n) t asField).runIn (s.atStream stream) = (.ok (receiver, member), s') →
          ∃ c, s'.Matches t asField receiver member c := by
  have hmatches : (declareMatching (Engine.layers n) t asField).Yields _ (s.atStream stream) fun r s' =>
      ∃ c, s'.Matches t asField r.1 r.2 c :=
    declareMatching_yields (Engine.layers_restoring n) h.wellTyped.pool hname
  have hrun : (genMatchingClass (Engine.layers n) t asField).runIn (s.atStream stream) =
      (declareMatching (Engine.layers n) t asField).runIn (s.atStream stream) := by
    rw [genMatchingClass_eq, runIn_bind]
    rcases hdeclared : (declareMatching (Engine.layers n) t asField).runIn (s.atStream stream) with ⟨e | x, s'⟩
    · rfl
    · obtain ⟨c, hc⟩ := (hmatches.of_run hdeclared).2 x rfl
      simp only [requireSeen_eq hc.seen]
      rfl
  refine ⟨hrun, fun receiver member s' hgiven => ?_⟩
  exact (hmatches.of_run (hrun ▸ hgiven)).2 (receiver, member) rfl

/-- A list of numbers of a variable kind, in a session that has generated nothing yet. -/
theorem matches_genMatchingClass_list :
    let s : Session := .start (.ofSeed 7 .kotlin) {} .kotlin
    let t := Language.kotlin.arrayListOf (.param ⟨"T", .invariant, some Language.kotlin.numberType⟩)
    s.Reachable ∧ t.Nameable ∧
      (genMatchingClass (Engine.layers 8) t true).runIn (s.atStream s.source.stream) =
          (declareMatching (Engine.layers 8) t true).runIn (s.atStream s.source.stream) ∧
        ∀ receiver member s',
          (genMatchingClass (Engine.layers 8) t true).runIn (s.atStream s.source.stream) =
              (.ok (receiver, member), s') → ∃ c, s'.Matches t true receiver member c :=
  have hname : (Language.kotlin.arrayListOf (.param ⟨"T", .invariant, some Language.kotlin.numberType⟩)).Nameable :=
    ⟨by decide, by decide⟩
  ⟨.start 7 {} .kotlin, hname, Session.Reachable.matches_genMatchingClass (.start 7 {} .kotlin) _ hname true⟩

end ProgramGen

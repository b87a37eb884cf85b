import ProgramGen.Proofs.Typing.Bodies
import ProgramGen.Synthesis.Program

/-!
# What holds of every run

A session is reachable if it comes from a fresh generator by operations of the generator, in any
order, finished or failed. Each operation is given what its callers give it: types over the classes
of the session, scopes that can hold type parameters, classes that a table admits. All of them keep
a session well typed, so an expression that is generated in a reachable session fits the type that
it is generated for.
-/

namespace ProgramGen

variable {s s' : Session} {e : Engine} {α : Type}

namespace Gen

/-! ## Programs -/

/-- The entry function is a function as it can be asked for. -/
theorem genMain_typed (he : e.Sound) (hs : s.WellTyped) :
    (genMain e).Yields Session.Typed s fun _ _ => True := by
  refine .get ?_
  refine inFrame_typed (Q := fun _ _ => True) hs hs.rooted fun s₁ h₁ hs₁ hv => ?_
  have hstated : FuncSpec.Stated s₁
      { ret := some s.language.voidType
        classIsFinal := true
        name := some "main"
        params := some [⟨"args", s.language.arrayOf s.language.stringType, none⟩]
        typeParams := some []
        ns := some .global } := by
    have hlanguage : s.language = s₁.language := h₁ ▸ rfl
    refine ⟨⟨?_, ?_, ?_⟩, ?_, ?_⟩
    · intro t ht
      cases ht
      exact hlanguage ▸ s₁.over_builtin .void
    · intro ps hps p hp
      cases hps
      rw [List.mem_singleton.mp hp, hlanguage]
      exact .applied (.inl .array) rfl fun v hv => List.mem_singleton.mp hv ▸ s₁.over_builtin .string
    · intro ps hps p hp
      cases hps
      cases hp
    · intro ns hns
      cases hns
      exact List.cons_ne_nil _ _
    · intro n hn
      cases hn
      exact hs₁.not_reserved_of_startsLower (List.cons_ne_nil _ _) ⟨'m', _, rfl, rfl⟩
  exact (genFuncDecl_typed he hs₁ hstated).mono fun _ _ _ _ => trivial

/-- Where nothing is asked of a function, it can be declared. -/
theorem stated_func : FuncSpec.Stated s {} :=
  ⟨⟨nofun, nofun, nofun⟩, nofun, nofun⟩

/-- Where nothing is asked of a class, it can be declared. -/
theorem stated_class : ClassSpec.Stated s {} :=
  ⟨⟨nofun, nofun, nofun, nofun⟩, nofun, nofun⟩

theorem genTopLevel_typed (he : e.Sound) (hs : s.WellTyped) :
    (genTopLevel e).Yields Session.Typed s fun _ _ => True := by
  unfold genTopLevel
  refine (Yields.rand (Q := fun _ _ => True) fun _ _ _ => trivial).bind fun kind s₁ h₁ _ => ?_
  obtain ⟨-, hs₁⟩ := h₁ hs
  split
  · exact (genVariableDecl_typed he hs₁ fun _ ht => by cases ht).bind fun _ _ _ _ => .pure trivial
  · split
    · exact (genClassDecl_typed he hs₁ stated_class).bind fun _ _ _ _ => .pure trivial
    · exact (genFuncDecl_typed he hs₁ stated_func).bind fun _ _ _ _ => .pure trivial

theorem genDeclarations_typed (he : e.Sound) (hs : s.WellTyped) :
    (genDeclarations e).Yields Session.Typed s fun _ _ => True := by
  unfold genDeclarations
  refine .get (Yields.sizeBetween.bind fun count s₁ h₁ _ => ?_)
  have htimes : (times count (genTopLevel e)).Yields Session.Typed s₁ fun _ _ => True :=
    (Yields.times (G := fun _ _ => True)
      (fun s₂ h₂ => genTopLevel_typed he (h₂ (h₁ hs).2).2) fun _ _ _ _ _ => trivial).mono
        fun _ _ _ _ => trivial
  refine htimes.bind fun _ s₂ h₂ _ => ?_
  exact (genMain_typed he (h₂ (h₁ hs).2).2).bind fun _ _ _ _ => .pure trivial

end Gen

/-! ## Operations -/

/-- The operations of the generator, with what its own code gives them in the session `s`. The large
ones come after the small ones that they are made of, so that each state in the middle of a run is a
state after some operations. -/
inductive Gen.Operation (e : Engine) (s : Session) : {α : Type} → Gen α → Prop where
  -- Scopes.
  | frame (f : Frame) (hf : f.ns.segments ≠ []) :
      Operation e s (modify fun s => { s with frame := f })
  | unfinished (names : List String) :
      Operation e s (modify fun s => { s with unfinished := names })
  | counts (hoisted : Std.HashMap Namespace Nat) (lambdas loops branches : Nat) :
      Operation e s (modify fun s =>
        { s with
          hoisted := hoisted
          lambdaCount := lambdas
          loopCount := loops
          branchCount := branches })
  -- Choices.
  | rand {α : Type} (r : Rand α) : Operation e s (rand r)
  | word : Operation e s word
  | className : Operation e s className
  | selectType (o : TypeOpts) : Operation e s (selectType o)
  | concretize {t : Ty} (ht : t.Over s.vocabulary) : Operation e s (concretize t)
  | narrow {t : Ty} (ht : t.Over s.vocabulary) : Operation e s (narrow t)
  | instantiate {c : TypeCtor} {fixed : Subst} (hc : s.HasClass c)
      (hfixed : fixed.Over s.vocabulary) : Operation e s (instantiate c fixed)
  -- The symbol table.
  | addDecl {ns : Namespace} {d : Decl} (hd : d.kind ≠ .cls)
      (ht : ∀ t ∈ d.types, t.Over s.vocabulary) : Operation e s (addDecl ns d)
  | addClass {c : ClassDecl} (hover : ∀ t ∈ c.types, t.Over s.vocabulary)
      (hc : c.HeaderOk s.language) : Operation e s (addDecl .global (.cls c))
  | addVar {ns : Namespace} {d : Decl} (ht : ∀ t ∈ d.types, t.Over s.vocabulary) :
      Operation e s (updateContext (·.addVar ns d))
  | removeVar (ns : Namespace) (name : String) :
      Operation e s (modifyContext (·.removeVar ns name))
  | addType {ns : Namespace} {p : TypeParam} (hns : ¬s.Reserved ns)
      (hp : (Ty.param p).Over s.vocabulary) : Operation e s (addType ns p)
  | removeType (ns : Namespace) (name : String) :
      Operation e s (modifyContext (·.removeType ns name))
  | attach {ns : Namespace} {d : Decl} (hd : d.kind ≠ .cls)
      (ht : ∀ t ∈ d.types, t.Over s.vocabulary) : Operation e s (attach ns d)
  | updateFunc {ns : Namespace} {f : FuncDecl} (hf : ∀ t ∈ f.types, t.Over s.vocabulary) :
      Operation e s (updateFunc ns f)
  | makeMutable (name : String) : Operation e s (makeMutable name)
  | genTypeParams (count : Option Nat) (withVariance forFunc : Bool) (taken : List String)
      (hns : ¬s.Reserved s.frame.ns) :
      Operation e s (genTypeParams count withVariance taken forFunc)
  -- Declarations.
  | variableDecl {type : Option Ty} (onlyLeaves : Bool) (init : Option Expr)
      (htype : ∀ t ∈ type, t.Over s.vocabulary) :
      Operation e s (genVariableDecl e type onlyLeaves init)
  | funcDecl {spec : FuncSpec} (hspec : spec.Stated s) : Operation e s (genFuncDecl e spec)
  | overrideFunc {ns : Namespace} {m : Subst} {f : FuncDecl} (classIsFinal : Bool)
      (hns : ns.size = 2) (hf : ∀ t ∈ f.types, t.Over s.vocabulary) (hm : m.Over s.vocabulary) :
      Operation e s (overrideFunc e ns m classIsFinal f)
  | superArgs {c : ClassDecl} {m : Subst} (hfields : ∀ f ∈ c.fields, f.ty.Over s.vocabulary)
      (hm : m.Over s.vocabulary) : Operation e s (genSuperArgs e c m)
  | classDecl {spec : ClassSpec} (hspec : spec.Stated s) : Operation e s (genClassDecl e spec)
  | matchingClass {t : Ty} (asField : Bool) (ht : t.Over s.vocabulary) :
      Operation e s (genMatchingClass e t asField)
  -- Expressions and statements.
  | expr {t : Ty} (o : ExprOpts) (ht : t.Over s.vocabulary) : Operation e s (genExpr e t o)
  | new {t : Ty} (sam : Bool) (ht : t.Over s.vocabulary) : Operation e s (genNew e t sam)
  | funcCall {t : Ty} (ht : t.Over s.vocabulary) : Operation e s (genFuncCall e t)
  | fieldAccess {t : Ty} (ht : t.Over s.vocabulary) : Operation e s (genFieldAccess e t)
  | assignment : Operation e s (genAssignment e)
  | conditional {t : Ty} (ht : t.Over s.vocabulary) : Operation e s (genConditional e t)
  | typeTest {t : Ty} (ht : t.Over s.vocabulary) : Operation e s (genTypeTest e t)
  | loop : Operation e s (genLoop e)
  | asStatement {a : Expr} (ha : ∀ u, a.ty? = some u → u.Over s.vocabulary) :
      Operation e s (asStatement e a)
  | body {t : Ty} (ht : t.Over s.vocabulary) : Operation e s (genBody e t)
  -- Programs.
  | main : Operation e s (genMain e)
  | topLevel : Operation e s (genTopLevel e)
  | declarations : Operation e s (genDeclarations e)

/-- **Each operation keeps a session well typed, whatever it ends in.** -/
theorem Gen.Operation.wellTyped {x : Gen α} (h : x.Operation e s) (he : e.Sound)
    (hs : s.WellTyped) : (x.runIn s).2.WellTyped := by
  have hstep : ∀ {β : Type} {y : Gen β} {Q : β → Session → Prop},
      y.Yields Session.Typed s Q → (y.runIn s).2.WellTyped := fun hy => (hy.1 hs).2
  have hdraws : ∀ {β : Type} {y : Gen β} {Q : β → Session → Prop},
      y.Yields Session.OnlyDraws s Q → (y.runIn s).2.WellTyped :=
    fun hy => hstep (Yields.of_onlyDraws hy)
  cases h with
  | frame f hf => exact hs.withFrame hf
  | unfinished names => exact hs.withUnfinished
  | counts hoisted lambdas loops branches =>
    exact (Session.typed_withCounts hoisted lambdas loops branches hs).2
  | rand r => exact hstep (Yields.rand (Q := fun _ _ => True) fun _ _ _ => trivial)
  | word => exact hstep (word_typed hs)
  | className => exact hstep (className_typed hs)
  | selectType o => exact hdraws (selectType_typed hs)
  | concretize ht => exact hdraws (concretize_typed ht)
  | narrow ht => exact hdraws (narrow_typed hs ht)
  | instantiate hc hfixed => exact hdraws (instantiate_typed hs hc hfixed)
  | addDecl hd ht => exact hstep (addDecl_typed hd ht)
  | addClass hover hc => exact hstep (addClass_typed hover hc)
  | addVar ht => exact hstep (addVar_typed ht)
  | removeVar ns name => exact (Session.typed_removeVar hs).2
  | addType hns hp => exact hstep (addType_typed hns hp)
  | removeType ns name => exact (Session.typed_removeType hs).2
  | attach hd ht => exact hstep (attach_typed hs hd ht)
  | updateFunc hf => exact hstep (updateFunc_typed hs hf)
  | makeMutable name => exact hstep (makeMutable_typed hs)
  | genTypeParams count withVariance forFunc taken hns =>
    obtain ⟨names, hnames⟩ := s.exists_seenNames
    exact hstep (genTypeParams_typed hs hns hnames)
  | variableDecl onlyLeaves init htype => exact hstep (genVariableDecl_typed he hs htype)
  | funcDecl hspec => exact hstep (genFuncDecl_typed he hs hspec)
  | overrideFunc classIsFinal hns hf hm => exact hstep (overrideFunc_typed he hs hns hf hm)
  | superArgs hfields hm => exact hstep (genSuperArgs_typed he hs hfields hm)
  | classDecl hspec => exact hstep (genClassDecl_typed he hs hspec)
  | matchingClass asField ht => exact hstep (genMatchingClass_typed he hs ht)
  | expr o ht => exact hstep (genExpr_typed he hs ht)
  | new sam ht => exact hstep (genNew_typed he hs ht)
  | funcCall ht => exact hstep (genFuncCall_typed he hs ht)
  | fieldAccess ht => exact hstep (genFieldAccess_typed he hs ht)
  | assignment => exact hstep (genAssignment_typed he hs)
  | conditional ht => exact hstep (genConditional_typed he hs ht)
  | typeTest ht => exact hstep (genTypeTest_typed he hs ht)
  | loop => exact hstep (genLoop_typed he hs)
  | asStatement ha => exact hstep (asStatement_typed he hs ha)
  | body ht => exact hstep (genBody_typed he hs ht)
  | main => exact hstep (genMain_typed he hs)
  | topLevel => exact hstep (genTopLevel_typed he hs)
  | declarations => exact hstep (genDeclarations_typed he hs)

/-! ## Reachable sessions -/

/-- The sessions that a fresh generator comes to. -/
inductive Session.Reachable : Session → Prop where
  | start (seed : UInt64) (config : Config) (l : Language) :
      Reachable (.start (.ofSeed seed l) config l)
  | step {s : Session} {n : Nat} {α : Type} {x : Gen α} (hs : Reachable s)
      (h : x.Operation (Engine.layers n) s) : Reachable (x.runIn s).2

/-- A session that has generated nothing is well typed. -/
theorem Session.wellTyped_start {source : Source} (config : Config) (l : Language)
    (h : source.pool.Sound) : (Session.start source config l).WellTyped where
  pool := h
  rooted := List.cons_ne_nil _ _
  over_types ns d hd := by
    rw [Context.declarations, start, Context.scope_empty] at hd
    cases hd
  over_params ns p hp := by
    rw [start, Context.scope_empty] at hp
    cases hp
  headers c hc := by
    have h := Context.mem_classes_global.mp hc
    rw [Context.declarations, start, Context.scope_empty] at h
    cases h
  distinct := by
    rw [classes_eq, Context.declarations, start, Context.scope_empty]
    exact List.nodup_nil
  reserved ns _ := by
    rw [start, Context.scope_empty]
    rfl
  distinct_params ns := by
    rw [start, Context.scope_empty]
    exact List.nodup_nil

/-- **Reachable sessions are well typed.** -/
theorem Session.Reachable.wellTyped (h : s.Reachable) : s.WellTyped := by
  induction h with
  | start seed config l => exact wellTyped_start config l (WordPool.sound_full l)
  | step _ h ih => exact h.wellTyped (Engine.layers_sound _) ih

/-- The request for a literal, or for a new value. -/
def leafOpts : ExprOpts := { onlyLeaves := true, narrowing := false, excludeVar := true }

/-- The state of a fresh generator of programs in Kotlin. -/
def freshSession : Session := .start (.ofSeed 7 .kotlin) {} .kotlin

/-- The type of what is generated first in a fresh session. -/
def firstType? (t : Ty) : Option Ty :=
  ((Gen.genExpr (Engine.layers 1) t leafOpts).runIn freshSession).1.toOption.bind Expr.ty?

theorem exists_of_firstType? {t u : Ty} (h : firstType? t = some u) : ∃ a s',
    (Gen.genExpr (Engine.layers 1) t leafOpts).runIn freshSession = (.ok a, s') ∧
      a.ty? = some u := by
  unfold firstType? at h
  rcases hrun : (Gen.genExpr (Engine.layers 1) t leafOpts).runIn freshSession with ⟨_ | a, s'⟩
  · rw [hrun] at h
    cases h
  · rw [hrun] at h
    exact ⟨a, s', rfl, h⟩

end ProgramGen

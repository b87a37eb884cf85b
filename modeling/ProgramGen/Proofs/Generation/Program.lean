import ProgramGen.Proofs.Generation.Layers
import ProgramGen.Proofs.Generation.Matching

/-!
# Programs

A session that has generated nothing is sound, declarations of the top level are steps, and the names of
the function that a program starts with are free until it is made. So a program is generated by steps
from one sound session to another, and where that fails it is because two types could not be made equal.
-/

namespace ProgramGen

open Session

variable {s s' : Session} {e : Engine} {P : Permit} {source : Source} {config : Config} {l : Language}

namespace Session

theorem decls_start (ns : Namespace) : (start source config l).decls ns = [] :=
  congrArg Bindings.decls (Context.scope_empty : Context.empty.scope ns = .empty)

/-- **A session that has generated nothing is sound.** -/
theorem sound_start (h : source.pool.Sound) : (start source config l).Sound := by
  have hscope : ∀ ns, (start source config l).context.scope ns = .empty := fun ns => Context.scope_empty
  have hdecls : ∀ ns d, d ∉ (start source config l).decls ns := fun ns d hd => by
    rw [decls_start] at hd
    cases hd
  have hclasses : ∀ c, c ∉ (start source config l).classes := fun c hc =>
    hdecls .global _ (Context.mem_classes_global.mp hc)
  exact
    { opened := fun ns hne => absurd (hscope ns) hne
      taken := fun n ⟨ns, d, hd, _⟩ => absurd hd (hdecls ns d)
      keys := fun ns => by
        rw [decls_start]
        exact List.nodup_nil
      unique := fun ns d _ _ hd => absurd hd (hdecls ns d)
      params := fun ns f hf => absurd hf (hdecls ns _)
      classScopes := fun ns _ d hd => absurd hd (hdecls ns d)
      types := fun ns d hd => absurd hd (hdecls ns d)
      pool := h
      rooted := rfl
      here := List.forall_mem_singleton.mpr (spent_fixed h (by decide))
      body := nofun
      root := fun _ => rfl
      making := nofun
      notThis := fun ns ⟨v, hv, _⟩ => hdecls ns _ hv
      members := fun c hc => absurd hc (hclasses c)
      fields := fun ns f hf => absurd hf (hdecls ns _)
      globalTypes := by rw [hscope]; rfl
      ownTypes := fun c hc => absurd hc (hclasses c)
      typeParams := fun ns p hp => by
        rw [hscope] at hp
        cases hp
      classes := fun c hc => absurd hc (hclasses c)
      ordered := fun before c after heq => absurd (heq ▸ List.mem_append_right _ List.mem_cons_self) (hclasses c)
      trees := fun d hd => absurd hd (hdecls .global d)
      shaped := fun ns d hd => absurd hd (hdecls ns d) }

/-- Fixed names are there for what the generator names so. -/
theorem untaken_start {n : String} (h : source.pool.Sound) (hn : n ∈ fixedNames) :
    (start source config l).Untaken n :=
  ⟨spent_fixed h hn, fun ⟨ns, d, hd, _⟩ => by
    rw [decls_start] at hd
    cases hd⟩

/-- The top level, before the function that the program starts with is made. -/
structure BeforeMain (s : Session) (e : Engine) : Prop where
  sound : s.Sound
  served : s.Served e 1
  ns : s.frame.ns = .global
  main : s.Untaken "main"
  args : s.Untaken "args"
  empty : s.context.scope (Namespace.global.child "main") = .empty

theorem BeforeMain.step (h : s.BeforeMain e) (hstep : s.Step (.within .global) s') : s'.BeforeMain e where
  sound := hstep.sound
  served := h.served.step hstep
  ns := hstep.frame ▸ h.ns
  main := h.main.step hstep id
  args := h.args.step hstep id
  empty := by
    have hmain : Namespace.global.child "main" ≠ .global := by decide
    rw [hstep.same _ (opened_child (h.ns ▸ h.sound.here) h.main.spent) hmain fun heq => hmain heq]
    exact h.empty

theorem beforeMain_start (h : source.pool.Sound) (he : e.Serves config.limits.maxDepth 0) :
    (start source config l).BeforeMain e where
  sound := sound_start h
  served := ⟨⟨fun hs hL hd => he.expr hs hL (Nat.zero_le _)⟩, fun hs hL hd => he.body hs hL (Nat.zero_le _)⟩
  ns := rfl
  main := untaken_start h (by decide)
  args := untaken_start h (by decide)
  empty := Context.scope_empty

end Session

/-- A permit to add to everything; only the top level gets no parameters. -/
def Permit.all : Permit := ⟨fun _ => True, (· ≠ .global), fun _ => True⟩

/-- A function of any sort can be declared at the top level. -/
theorem Session.BeforeMain.declarable (h : s.BeforeMain e) : FuncSpec.Declarable {} (.within .global) s .global where
  ns := h.ns
  rooted := rfl
  opened := h.ns ▸ h.sound.here
  place := .scope Namespace.className?_global (.inl rfl) rfl rfl
  named := .fresh rfl rfl
  placed _ hlocal := absurd rfl hlocal.ne_global
  ret := nofun
  typeParams := nofun
  whole _ := rfl

namespace Gen

/-- **A declaration of the top level.** -/
theorem genTopLevel_ensures (h : s.BeforeMain e) :
    (genTopLevel e).Ensures (Step (.within .global)) s fun _ _ => True := by
  unfold genTopLevel
  refine (Ensures.draw.drawStep h.sound).bind fun kind s₁ h₁ _ => ?_
  have hs₁ := h.step h₁
  split
  · refine (genVariableDecl_step hs₁.sound (fun _ h => by cases h) (fun _ h => by cases h) (fun _ => hs₁.served.exprs)
      (.inl hs₁.ns) (.inl hs₁.ns)).bind fun _ s₂ h₂ _ => .pure (.refl h₂.sound) trivial
  split
  · exact (genClassDecl_ensures hs₁.sound hs₁.served (fun _ h => by cases h)
      (fun _ _ => ⟨rfl, (fun _ h => by cases h), fun _ h => by cases h⟩) rfl).bind
      fun _ s₂ h₂ _ => .pure (.refl h₂.sound) trivial
  · exact (genFuncDecl_ensures hs₁.sound hs₁.served hs₁.declarable).bind fun _ s₂ h₂ _ => .pure (.refl h₂.sound) trivial

/-- **The function that the program starts with.** -/
theorem genMain_ensures (h : s.BeforeMain e) :
    (genMain e).Ensures (Step .all) s fun f s' => .func f ∈ s'.decls .global ∧ f.name = "main" := by
  unfold genMain
  refine .get (.inSameScope h.sound ⟨rfl, rfl, rfl, id, le_rfl⟩ fun s₀ heq hs₀ => ?_)
  have h₀ : s₀.BeforeMain e := by
    rw [heq]
    exact ⟨heq ▸ hs₀, h.served.withFrame le_rfl, h.ns, ⟨spent_withFrame.mpr h.main.spent, h.main.free⟩,
      ⟨spent_withFrame.mpr h.args.spent, h.args.free⟩, h.empty⟩
  have hlanguage : s₀.language = s.language := by rw [heq]
  rw [← hlanguage]
  have hstring : s₀.language.stringType.Plain := s₀.language.plain_builtin (by decide)
  have hspec : FuncSpec.Declarable
      { ret := some s₀.language.voidType
        classIsFinal := true
        name := some "main"
        params := some [⟨"args", s₀.language.arrayOf s₀.language.stringType, none⟩]
        typeParams := some []
        ns := some .global } .all s₀ .global :=
    { ns := rfl
      rooted := rfl
      opened := h₀.ns ▸ h₀.sound.here
      place := .scope Namespace.className?_global (.inl rfl) rfl rfl
      named := .given rfl h₀.main.spent (.fresh h₀.main.free trivial) (fun _ => by decide) h₀.empty trivial
        (Namespace.child_ne_global rfl) (by rw [h₀.ns]; decide) fun ps hps => by
          cases hps
          refine ⟨List.forall_mem_singleton.mpr ⟨⟨?_, h₀.args.spent,
            show "args" ≠ "main" by decide, .inl ⟨h₀.args.free, trivial⟩, nofun⟩, rfl⟩,
            List.nodup_singleton _⟩
          exact Language.HasClass.array.plain_apply rfl hstring fun _ => Language.isGround_builtin _ _
      placed := fun _ hlocal => absurd rfl hlocal.ne_global
      ret := fun t ht => by
        cases ht
        exact Language.requested_voidType _
      typeParams := fun ps hps => by
        cases hps
        exact ⟨nofun, List.nodup_nil⟩
      whole := nofun }
  exact (genFuncDecl_ensures h₀.sound h₀.served hspec).mono fun f s' _ hf => ⟨hf.mem, hf.name _ rfl⟩

/-- **The declarations of a program** lead to a sound session. -/
theorem genDeclarations_ensures (h : s.BeforeMain e) : (genDeclarations e).Ensures (Step .all) s fun _ _ => True := by
  unfold genDeclarations
  refine .get ?_
  extract_lets limits
  refine (Ensures.sizeBetween.drawStep (P := .within .global) h.sound).seq fun count s₁ h₁ _ => ?_
  have hs₁ := h.step h₁
  refine (Ensures.times (G := fun _ _ => True) (.refl hs₁.sound) (fun s' hstep => genTopLevel_ensures (hs₁.step hstep))
    fun _ _ _ _ _ => trivial).seq fun _ s₂ h₂ _ => ?_
  have hall : ∀ {s' : Session}, s.Step (.within .global) s' → s.Step .all s' := fun hstep =>
    hstep.relax ⟨fun _ _ _ _ => trivial, nofun, fun _ _ _ => .inl trivial⟩
  refine Ensures.weaken (R := Step .all) ?_ fun _ => (hall (h₁.trans h₂)).trans
  exact (genMain_ensures (hs₁.step h₂)).bind fun _ s₃ h₃ _ => .pure (.refl h₃.sound) trivial

end Gen

end ProgramGen

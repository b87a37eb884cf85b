import ProgramGen.Proofs.Frame.Growth
import ProgramGen.Proofs.Frame.Restored
import ProgramGen.Proofs.Names.Spent
import ProgramGen.Proofs.Scope.Attachment
import ProgramGen.Synthesis.Function

/-!
# Single steps restore what is scoped

The steps that the generator is built from. They restore what is scoped, and besides they keep to any
relation that sees only what they leave alone. A variable is declared right after its name was drawn,
so the two are one step. Inside the global scope classes only grow, and one that is given a member has
gained it.
-/

namespace ProgramGen

open Session

/-- A relation that keeps the configuration, and sees no more of a session than that, its frame and how
many expressions were moved into variables. -/
class Oblivious (R : Session → Session → Prop) : Prop extends Restoring R where
  config : ∀ s s', R s s' → s'.config = s.config
  unseen : ∀ s s', s'.frame = s.frame → s'.config = s.config → s'.hoisted = s.hoisted → R s s'

/-- The symbol table is not seen. -/
theorem Oblivious.withContext {R : Session → Session → Prop} [Oblivious R] (s : Session) (C : Context) :
    R s (s.withContext C) :=
  unseen s (s.withContext C) rfl rfl rfl

variable {α β : Type} {G : Prop} {R Q : Session → Session → Prop} {s s₀ s₁ s' : Session} {ns : Namespace}
variable {d : Decl} {p : TypeParam} {f : FuncDecl} {v : VarDecl} {name : String} {C : Context} {c : ClassDecl}

namespace Session

/-- What is scoped is restored, and `R` is kept to besides. If `G` holds then classes grow, provided that
the scope is inside the global one. -/
structure Keeps (G : Prop) (R : Session → Session → Prop) (s s' : Session) : Prop where
  restores : s.Restores s'
  also : R s s'
  grows : G → s.frame.ns.isWithin .global → s.context.GrowsTo s'.context

/-- What restores what is scoped and is not seen by `R` keeps to it. -/
theorem Restores.keeps [Oblivious R] (h : s.Restores s') (hconfig : s'.config = s.config)
    (hhoisted : s'.hoisted = s.hoisted) (hgrows : G → s.context.GrowsTo s'.context) : s.Keeps G R s' :=
  ⟨h, Oblivious.unseen s s' h.frame hconfig hhoisted, fun hG _ => hgrows hG⟩

theorem Keeps.imp (h : Subrelation R Q) : Subrelation (Keeps G R) (Keeps G Q) := fun hk =>
  ⟨hk.restores, h hk.also, hk.grows⟩

instance [Oblivious R] : IsPreorder Session (Keeps G R) where
  refl s := (refl_of Restores s).keeps rfl rfl fun _ => .refl _
  trans _ _ _ h h' := ⟨h.restores.trans h'.restores, trans_of R h.also h'.also, fun hG hns =>
    (h.grows hG hns).trans (h'.grows hG (h.restores.frame ▸ hns))⟩

instance [Oblivious R] : AllowsDraws (Keeps G R) where
  draw s stream := (Restores.atStream s stream).keeps rfl rfl fun _ => .refl _

/-- If a scope is that of a class, it has grown, and it shows the member. -/
def Gains (s : Session) (ns : Namespace) (d : Decl) (s' : Session) : Prop :=
  ∀ c, s.context.Tracks c → c.scope = ns → startsUppercase c.name →
    ∃ c', s'.context.Tracks c' ∧ c.GrowsTo c' ∧ c'.Shows d

/-- To complete a function changes only a class that shows it. -/
def Completes (ns : Namespace) (f : FuncDecl) (s s' : Session) : Prop :=
  ∀ c, s.context.Tracks c → (c.scope = ns → startsUppercase c.name → c.Shows (.func f)) →
    ∃ c', s'.context.Tracks c' ∧ c.GrowsTo c'

theorem Gains.mono (h : s.Gains ns d s₁) (hgrows : s₁.context.GrowsTo s'.context) : s.Gains ns d s' := by
  intro c hc hscope hupper
  obtain ⟨c₁, hc₁, hc₁grows, hshows⟩ := h c hc hscope hupper
  obtain ⟨c', hc', hc'grows⟩ := hgrows c₁ hc₁
  exact ⟨c', hc', hc₁grows.trans hc'grows, hshows.mono hc'grows⟩

/-- What was gained is kept. -/
theorem Gains.kept (h : s.Gains ns d s₁) (hgained : s.Keeps G R s₁) (hkept : s₁.Keeps G Q s') (hG : G)
    (hns : s.frame.ns.isWithin .global) : s.Gains ns d s' :=
  h.mono (hkept.grows hG (hgained.restores.frame ▸ hns))

/-- **A function is completed in the class that has gained it.** -/
theorem Completes.grows (h : s₁.Completes ns f s') (hgrows : s.context.GrowsTo s₁.context)
    (hgains : s.Gains ns (.func f) s₁) : s.context.GrowsTo s'.context ∧ s.Gains ns (.func f) s' := by
  refine ⟨fun c hc => ?_, fun c hc hscope hupper => ?_⟩
  · obtain ⟨c₁, hc₁, hc₁grows⟩ := hgrows c hc
    obtain ⟨c', hc', hc'grows⟩ := h c₁ hc₁ fun hscope hupper => by
      obtain ⟨c₂, hc₂, hc₂grows, hshows⟩ := hgains c hc (hc₁grows.scope ▸ hscope) (hc₁grows.name ▸ hupper)
      rwa [hc₁.eq hc₂ (hc₁grows.name.trans hc₂grows.name.symm)]
    exact ⟨c', hc', hc₁grows.trans hc'grows⟩
  · obtain ⟨c₁, hc₁, hc₁grows, hshows⟩ := hgains c hc hscope hupper
    obtain ⟨c', hc', hc'grows⟩ := h c₁ hc₁ fun _ _ => hshows
    exact ⟨c', hc', hc₁grows.trans hc'grows, hshows.mono hc'grows⟩

/-- What happened before takes no class away. -/
theorem Gains.since (h : s₁.Gains ns d s') (hgrows : s.context.GrowsTo s₁.context) : s.Gains ns d s' := by
  intro c hc hscope hupper
  obtain ⟨c₁, hc₁, hc₁grows⟩ := hgrows c hc
  obtain ⟨c', hc', hc'grows, hshows⟩ := h c₁ hc₁ (hc₁grows.scope.trans hscope) (hc₁grows.name ▸ hupper)
  exact ⟨c', hc', hc₁grows.trans hc'grows, hshows⟩

theorem Gains.of_outline {f' : FuncDecl} (h : s.Gains ns (.func f) s')
    (houtline : (Decl.func f').outline = (Decl.func f).outline) : s.Gains ns (.func f') s' := by
  intro c hc hscope hupper
  obtain ⟨c', hc', hgrows, hshows⟩ := h c hc hscope hupper
  exact ⟨c', hc', hgrows, hshows.of_outline houtline⟩

/-- There is a class of the name and the type parameters with the members that are asked for. -/
def HasClassWith (s : Session) (name : String) (ps : List TypeParam) (field method : Option Ty) : Prop :=
  ∃ c, s.context.Tracks c ∧ c.name = name ∧ c.typeParams = ps ∧ c.Answers field method

/-- **A class that gains a member answers to its type**, and to whatever it has answered to before. -/
theorem HasClassWith.gain {ps : List TypeParam} {field method field' method' : Option Ty}
    (h : s.HasClassWith name ps field method)
    (hgrows : s.context.GrowsTo s'.context) (hupper : startsUppercase name)
    (hfield : field' = field ∨ ∀ t ∈ field', ∃ f, f.ty = t ∧ s.Gains (Namespace.global.child name) (.field f) s')
    (hmethod : method' = method ∨ ∀ t ∈ method', ∃ f, f.ret = t ∧ s.Gains (Namespace.global.child name) (.func f) s') :
    s'.HasClassWith name ps field' method' := by
  obtain ⟨c, hc, rfl, hps, hanswers⟩ := h
  obtain ⟨c', hc', hcgrows⟩ := hgrows c hc
  have hshows : ∀ d, s.Gains c.scope d s' → c'.Shows d := by
    intro d hd
    obtain ⟨c₁, hc₁, hc₁grows, hshows⟩ := hd c hc rfl hupper
    rwa [hc'.eq hc₁ (hcgrows.name.trans hc₁grows.name.symm)]
  refine ⟨c', hc', hcgrows.name, hcgrows.typeParams.trans hps, fun t ht => ?_, fun t ht => ?_⟩
  · rcases hfield with rfl | hfield
    · exact (hanswers.mono hcgrows).field t ht
    · exact (hfield t ht).imp fun f hf => ⟨hf.1, hshows _ hf.2⟩
  · rcases hmethod with rfl | hmethod
    · exact (hanswers.mono hcgrows).method t ht
    · exact (hmethod t ht).imp fun f hf => ⟨hf.1, hshows _ hf.2⟩

/-- A name that was drawn in a run from `s` and that nothing was bound to since. -/
structure Drew (s : Session) (n : String) (s₁ : Session) : Prop where
  name : s.source.pool.Sound → s.source.pool.Offers n ∧ ¬s₁.source.pool.Offers n
  free : s.source.pool.Sound → ∀ m, s₁.BindsVar m n → s.BindsVar m n

/-- Draws take no name back. -/
theorem Drew.atStream (h : s.Drew name s₁) (stream : Stream) : s.Drew name (s₁.atStream stream) :=
  ⟨h.name, h.free⟩

/-- To bind another name leaves the drawn one free. -/
theorem Drew.push (h : s.Drew name s₁) (hne : s.source.pool.Sound → v.name ≠ name) :
    s.Drew name (s₁.withContext (s₁.context.push ns (.var v))) :=
  ⟨h.name, fun hs m hn => h.free hs m ((bindsVar_push.mp hn).resolve_right
    fun ⟨_, w, hw, hname⟩ => hne hs (by cases hw; exact hname))⟩

end Session

/-! ## Scopes -/

/-- Out of a deeper scope. -/
theorem Session.Keeps.leave [Encloses R Q] {f : Frame} (hdepth : s.frame.depth < f.depth)
    (hns : G → s.frame.ns.isWithin .global → f.ns.isWithin .global) (h : Keeps G R { s with frame := f } s') :
    s.Keeps G Q { s' with frame := s.frame } where
  restores := Restoring.frame s _ f (Nat.le_of_lt hdepth) h.restores
  also := Encloses.frame s _ f hdepth h.also
  grows hG hs := h.grows hG (hns hG hs)

/-- A class is finished. -/
theorem Session.Keeps.finish [Restoring R] {names : List String} (h : Keeps G R { s with unfinished := names } s') :
    s.Keeps G R { s' with unfinished := s.unfinished } :=
  ⟨Restoring.unfinished s _ _ h.restores, Restoring.unfinished s _ _ h.also, h.grows⟩

namespace Gen.Always

variable {x : Gen α} {change : Frame → Frame}

/-- Where nothing is said of classes. -/
theorem growing (h : x.Always (Keeps False R))
    (hgrows : G → ∀ s : Session, s.frame.ns.isWithin .global → s.context.GrowsTo (x.runIn s).2.context) :
    x.Always (Keeps G R) := fun s =>
  ⟨(h s).restores, (h s).also, fun hG hns => hgrows hG s hns⟩

/-- A scope that may be as deep as what is around it. -/
theorem inFrame [Restoring R] (hdepth : ∀ f, f.depth ≤ (change f).depth)
    (hns : G → ∀ f, f.ns.isWithin .global → (change f).ns.isWithin .global) (h : x.Always (Keeps G R)) :
    (Gen.inFrame change x).Always (Keeps G R) := fun s =>
  have h := h { s with frame := change s.frame }
  ⟨Restoring.frame s _ _ (hdepth s.frame) h.restores, Restoring.frame s _ _ (hdepth s.frame) h.also,
    fun hG hs => h.grows hG (hns hG _ hs)⟩

theorem whileUnfinished [Restoring R] (h : x.Always (Keeps G R)) :
    (Gen.whileUnfinished name x).Always (Keeps G R) := fun s =>
  (h { s with unfinished := name :: s.unfinished }).finish

section Deeper

variable [Encloses R Q]

theorem outer (h : x.Always (Keeps G Q)) : x.Always (Keeps G R) :=
  .imp (Keeps.imp fun hk => Encloses.outer _ _ hk) h

theorem deeper (hdepth : ∀ f, f.depth < (change f).depth)
    (hns : G → ∀ f, f.ns.isWithin .global → (change f).ns.isWithin .global) (h : x.Always (Keeps G R)) :
    (Gen.inFrame change x).Always (Keeps G Q) := fun s =>
  (h { s with frame := change s.frame }).leave (hdepth s.frame) fun hG => hns hG s.frame

theorem nested {levels : Nat} (h : x.Always (Keeps G R)) : (nested (levels + 1) x).Always (Keeps G Q) :=
  deeper (fun _ => Nat.lt_add_of_pos_right levels.succ_pos) (fun _ _ => id) h

end Deeper

end Gen.Always

namespace Gen

variable [Oblivious R]

/-! ## Names -/

theorem draw_keeps {src : Source} {w : String}
    (h : s.source.pool.Sound → s.source.pool.Drawn w src.pool) : s.Keeps G R { s with source := src } :=
  Restores.keeps (.of_context rfl rfl rfl fun hs => ⟨(h hs).sound, (h hs).offers⟩) rfl rfl fun _ => .refl _

/-- A word is drawn and gone, and is none of those that were drawn before. -/
theorem word_yields (h : s₀.Keeps G R s) : word.Yields (Keeps G R) s fun w s' =>
    s₀.Drew w s' ∧ ∀ n, s₀.Drew n s → s₀.Drew n s' ∧ (s₀.source.pool.Sound → w ≠ n) := by
  have hdrawn := fun hs => WordPool.drawn_word (p := s.source.pool) hs s.source.stream
  have hrun : word.runIn s = (.ok s.source.word.1, { s with source := s.source.word.2 }) := rfl
  have hrestores := h.restores
  refine .of_eq hrun (draw_keeps hdrawn) fun w hw => ?_
  cases hw
  refine ⟨⟨fun hs => ⟨hrestores.offers hs _ (hdrawn (hrestores.pool hs)).offered,
    (hdrawn (hrestores.pool hs)).gone⟩, fun hs m hn => (hrestores.drawn hs m _ hn).resolve_right
      fun hgone => hgone.2 (hdrawn (hrestores.pool hs)).offered⟩, fun n hn => ⟨?_, ?_⟩⟩
  · exact ⟨fun hs => ⟨(hn.name hs).1, fun h' =>
      (hn.name hs).2 ((hdrawn (hrestores.pool hs)).offers n h')⟩, hn.free⟩
  · rintro hs rfl
    exact (hn.name hs).2 (hdrawn (hrestores.pool hs)).offered

theorem word_keeps : word.Always (Keeps G R) :=
  .of_yields fun s => (word_yields (refl_of (Keeps G R) s)).mono fun _ _ _ _ => trivial

/-- The name of a class is in uppercase, if the pool is sound. -/
theorem className_yields : className.Yields (Keeps G R) s fun name _ =>
    s.source.pool.Sound → startsUppercase name := by
  have hdrawn := fun hs => WordPool.drawn_word (p := s.source.pool) hs s.source.stream
  have hrun : className.runIn s = (.ok (capitalize s.source.word.1), { s with source := s.source.word.2 }) := rfl
  refine .of_eq hrun (draw_keeps hdrawn) fun name hname hs => ?_
  cases hname
  exact ((hdrawn hs).offered.startsLower hs).startsUppercase_capitalize

theorem className_keeps : className.Always (Keeps G R) := .of_yields fun _ =>
  className_yields.mono fun _ _ _ _ => trivial

/-- Counters are not scoped. -/
theorem counts_restores {hoisted : Std.HashMap Namespace Nat} {lambdas loops branches : Nat} :
    s.Restores { s with
      hoisted := hoisted
      lambdaCount := lambdas
      loopCount := loops
      branchCount := branches } :=
  .of_context rfl rfl rfl fun hs => ⟨hs, fun _ h => h⟩

/-- One closure, loop or branch more. -/
theorem counts_keeps {change : Session → Session}
    (h : ∀ s, ∃ lambdas loops branches, change s =
      { s with lambdaCount := lambdas, loopCount := loops, branchCount := branches }) :
    (modify change : Gen Unit).Always (Keeps G R) :=
  .modify fun s => by
    obtain ⟨lambdas, loops, branches, heq⟩ := h s
    rw [heq]
    exact counts_restores.keeps rfl rfl fun _ => .refl _

/-! ## Registration -/

theorem update_keeps {change : Context → Except GenError Context}
    (h : ∀ s C, change s.context = .ok C → Restores s (s.withContext C))
    (hgrows : G → ∀ c C, change c = .ok C → c.GrowsTo C) : (updateContext change).Always (Keeps G R) :=
  .updateContext (refl_of (Keeps G R)) fun s C hC => (h s C hC).keeps rfl rfl fun hG => hgrows hG _ C hC

theorem modifyContext_keeps {change : Context → Context}
    (h : ∀ s : Session, s.Restores (s.withContext (change s.context)))
    (hgrows : G → ∀ c : Context, c.GrowsTo (change c)) : (modifyContext change).Always (Keeps G R) :=
  .modify fun s => (h s).keeps rfl rfl fun hG => hgrows hG s.context

theorem addDecl_keeps (hd : ∀ v, d ≠ .var v) : (addDecl ns d).Always (Keeps G R) :=
  update_keeps (fun _ _ => .add hd) fun _ _ _ => .add

theorem addParam_keeps {q : ParamDecl} :
    (updateContext (·.addVar ns (.param q))).Always (Keeps G R) :=
  update_keeps (fun _ _ h => .add (d := .param q) nofun (Context.addVar_eq_ok h).2) fun _ _ _ => .addVar

/-- Type parameters are no variables. -/
theorem types_restores {s : Session} {C : Context}
    (h : ∀ m, C.declarations m = s.context.declarations m) : s.Restores (s.withContext C) := by
  refine .withContext (fun m n hn => ?_) fun m n hn => ?_
  · rwa [BindsVar, context_withContext, h] at hn
  · rwa [countNamed, context_withContext, h]

theorem addType_keeps : (addType ns p).Always (Keeps G R) := by
  have hsame : ∀ c C : Context, c.addType ns p = .ok C → ∀ m, C.declarations m = c.declarations m := by
    rintro c _ h m
    obtain ⟨-, rfl⟩ := Context.addType_eq_ok h
    exact Context.declarations_pushType
  exact update_keeps (fun s C h => types_restores (hsame s.context C h)) fun _ c C h => .of_declarations (hsame c C h)

theorem declarations_removeType {C : Context} {m : Namespace} :
    (C.removeType ns name).declarations m = C.declarations m := by
  rw [Context.declarations, Context.removeType, Context.scope_set]
  split
  · rw [‹ns = m›]
    rfl
  · rfl

theorem removeTypes_keeps {ps : List TypeParam} :
    (modifyContext fun c => ps.foldl (fun c p => c.removeType ns p.name) c).Always (Keeps G R) := by
  have hsame : ∀ (C : Context) m,
      (ps.foldl (fun c p => c.removeType ns p.name) C).declarations m = C.declarations m := by
    intro C m
    induction ps generalizing C with
    | nil => rfl
    | cons p ps ih => exact (ih (C.removeType ns p.name)).trans declarations_removeType
  exact modifyContext_keeps (fun s => types_restores (hsame s.context)) fun _ c => .of_declarations (hsame c)

/-! ## Members -/

theorem modifyClass_keeps {change : ClassDecl → ClassDecl} (h : ∀ c, (change c).name = c.name) :
    (modifyContext (·.modifyClass ns name change)).Always (Keeps False R) :=
  modifyContext_keeps
    (fun s => .modify (fun d => by cases d <;> exact ⟨rfl, .inl (by first | rfl | exact h _)⟩)
      fun d v hv => by
        cases d <;> cases hv
        exact ⟨_, rfl⟩)
    nofun

theorem modifyFunc_keeps : (modifyContext (·.modifyFunc ns name fun _ => f)).Always (Keeps False R) :=
  modifyContext_keeps
    (fun s => .modify (fun d => by cases d <;> exact ⟨rfl, by first | exact .inl rfl | exact .inr nofun⟩)
      fun d v hv => by
        cases d <;> cases hv
        exact ⟨_, rfl⟩)
    nofun

theorem addMember_keeps : (addMember name d).Always (Keeps False R) := by
  unfold addMember
  refine .get fun s => ?_
  split
  · exact .throw
  · split
    · exact modifyClass_keeps fun _ => rfl
    · exact modifyClass_keeps fun _ => rfl
    · exact .throw

/-- A class gets a member, and its scope binds it or refuses it: classes have grown anyway. -/
theorem addMember_grows (hd : d.isMember) :
    (do addMember name d
        addDecl (Namespace.global.child name) d : Gen Unit).Yields (fun s s' => s.context.GrowsTo s'.context) s
      fun _ s' => s.Gains (Namespace.global.child name) d s' := by
  rcases addMember_cases s name d with ⟨-, hmember⟩ | ⟨-, e, hmember⟩
  · rw [Gen.Yields, runIn_bind, hmember]
    set c₁ := s.context.modifyClass .global name (·.withMember d) with hc₁
    show (addDecl _ d).Yields (fun _ s' => s.context.GrowsTo s'.context) (s.withContext c₁) _
    have hrun := runIn_updateContext (·.add (Namespace.global.child name) d) (s.withContext c₁)
    cases hadd : c₁.add (Namespace.global.child name) d with
    | error e =>
      rw [context_withContext, hadd] at hrun
      exact .of_eq hrun (.attach rfl (fun _ _ => id) (Context.binds_of_add_eq_error hadd)) fun _ h => by cases h
    | ok C =>
      rw [context_withContext, hadd] at hrun
      obtain ⟨hfree, rfl⟩ := Context.add_eq_ok hadd
      refine .of_eq hrun ?_ fun _ _ c hc hscope _ => ?_
      · exact .attach Context.classes_push_child (fun _ _ h => Context.binds_push.mpr (.inl h))
          (Context.binds_push.mpr (.inr ⟨rfl, rfl, rfl⟩))
      · obtain ⟨-, rfl⟩ := Namespace.child_injective hscope
        obtain ⟨htracks, hshows⟩ := hc.attach hd hfree
        exact ⟨_, htracks, .withMember c d, hshows⟩
  · exact .of_eq (by rw [runIn_bind, hmember]) (.refl _) fun _ h => by cases h

/-- A member is attached where it is declared: only the scope of a class gives it to a class. -/
theorem attach_grows (hns : ns.isWithin .global) (hd : d.isMember) :
    (attach ns d).Yields (fun s s' => s.context.GrowsTo s'.context) s fun _ s' => s.Gains ns d s' := by
  unfold attach
  split
  · rename_i name hname
    obtain rfl := Namespace.eq_classScope hns hname
    exact addMember_grows hd
  · rename_i hnone
    refine Yields.updateContext (R := fun s s' => s.context.GrowsTo s'.context) (.refl _) fun C hC => ⟨.add hC, ?_⟩
    intro c _ hscope hupper
    rw [← hscope, ClassDecl.scope, Namespace.className?_classScope hupper] at hnone
    cases hnone

/-- **A member is attached to the class of a scope.** -/
theorem attach_yields (hd : d.isMember) (hns : G → ns.isWithin .global) :
    (attach ns d).Yields (Keeps G R) s fun _ s' => G → s.Gains ns d s' := by
  have hscoped : (attach ns d).Always (Keeps False R) := by
    have hvar : ∀ v, d ≠ .var v := by rintro v rfl; cases hd
    unfold attach
    split
    · exact .bind addMember_keeps fun _ => addDecl_keeps hvar
    · exact .pass (addDecl_keeps hvar)
  refine ⟨Always.growing hscoped (fun hG s _ => (attach_grows (hns hG) hd).1) s, fun _ h hG => ?_⟩
  exact (attach_grows (hns hG) hd).2 _ h

theorem attach_keeps (hd : d.isMember) (hns : G → ns.isWithin .global) : (attach ns d).Always (Keeps G R) :=
  .of_yields fun _ => (attach_yields hd hns).mono fun _ _ _ _ => trivial

theorem updateFunc_keeps : (updateFunc ns f).Always (Keeps False R) := by
  unfold updateFunc
  refine .get fun s => ?_
  extract_lets rest
  have hrest : ∀ r, (rest r).Always (Keeps False R) := fun _ => .bind modifyFunc_keeps fun _ => by
    split
    · exact .pure
    · exact modifyClass_keeps fun _ => rfl
  split
  · exact .bind .throw hrest
  · exact hrest ()

/-- A function is completed where it was registered. -/
theorem updateFunc_completes (hns : ns.isWithin .global) : (updateFunc ns f).Always (Completes ns f) := by
  intro s
  have hmodified : s.context.GrowsTo (s.context.modifyFunc ns f.name fun _ => f) :=
    .modify (fun d => by cases d <;> rfl) (fun d hkind hname => by cases d <;> first | rfl | exact hname)
      fun d => by cases d <;> rfl
  unfold updateFunc
  rw [runIn_get]
  by_cases hlost : (s.context.func? ns f.name false).isNone
  · rw [if_pos hlost]
    exact fun c hc _ => ⟨c, hc, .refl c⟩
  · rw [if_neg hlost]
    intro c hc hshows
    obtain ⟨c₁, hc₁, hgrows⟩ := hmodified c hc
    cases hname : ns.className? with
    | none => exact ⟨c₁, hc₁, hgrows⟩
    | some name =>
      obtain rfl := Namespace.eq_classScope hns hname
      obtain ⟨c', hc', hgrows'⟩ := hc₁.withFunc (f := f) Context.classes_modifyClass
        (fun _ _ => Context.binds_modifyClass fun _ => rfl) fun hc₁name => by
          have hcname : c.name = name := hgrows.name.symm.trans hc₁name
          refine (hshows (congrArg Namespace.global.child hcname) ?_).mono hgrows
          exact hcname ▸ (Namespace.className?_eq_some hname).1
      exact ⟨c', hc', hgrows.trans hgrows'⟩

/-- **A function is completed in the class that has it.** -/
theorem updateFunc_yields (h : s.Keeps G R s₁) (hns : G → ns.isWithin .global)
    (hgains : G → s.frame.ns.isWithin .global → s.Gains ns (.func f) s₁) :
    (updateFunc ns f).Yields (fun _ s' => s.Keeps G R s') s₁ fun _ s' =>
      G → s.frame.ns.isWithin .global → s.Gains ns (.func f) s' := by
  have hkeeps : s₁.Keeps False R ((updateFunc ns f).runIn s₁).2 := updateFunc_keeps s₁
  have hgrows := fun hG hs => (updateFunc_completes (hns hG) s₁).grows (h.grows hG hs) (hgains hG hs)
  exact ⟨⟨h.restores.trans hkeeps.restores, trans_of R h.also hkeeps.also, fun hG hs => (hgrows hG hs).1⟩,
    fun _ _ hG hs => (hgrows hG hs).2⟩

/-- A variable that is bound and removed again is not seen. -/
theorem removeShadow_keeps (hadd : s.context.addVar ns (.var v) = .ok C)
    (h : (s.withContext C).Keeps G R s') :
    s.Keeps G R { s' with context := s'.context.removeVar ns v.name } where
  restores := .removeShadow hadd h.restores
  also := trans_of R (trans_of R (Oblivious.withContext s C) h.also) (Oblivious.withContext s' _)
  grows hG hns := ((Context.GrowsTo.addVar hadd).trans (h.grows hG hns)).trans (.removeVar _ _ _)

/-- **A narrowing is taken back.** -/
theorem withShadow_keeps {x : Gen α} (h : x.Always (Keeps G R)) :
    (withShadow ns (.var v) x).Always (Keeps G R) := by
  refine .of_yields fun s => ?_
  unfold withShadow
  have hrun := runIn_bind (updateContext (·.addVar ns (.var v)))
    (fun _ => fun s => ((x s).1, { (x s).2 with context := (x s).2.context.removeVar ns v.name })) s
  rw [runIn_updateContext] at hrun
  cases hadd : s.context.addVar ns (.var v) with
  | error err =>
    rw [hadd] at hrun
    exact .of_eq hrun (refl_of (Keeps G R) s) fun _ _ => trivial
  | ok C =>
    rw [hadd] at hrun
    exact .of_eq hrun (removeShadow_keeps hadd (h (s.withContext C))) fun _ _ => trivial

/-! ## Declared variables -/

/-- A variable is declared under the name that was drawn for it. -/
theorem addVar_yields {P : Unit → Session → Prop} (h : s.Keeps G R s₁) (hname : s.Drew v.name s₁)
    (hP : P () (s₁.withContext (s₁.context.push ns (.var v)))) :
    (updateContext (·.addVar ns (.var v))).Yields (fun _ s' => s.Keeps G R s') s₁ P :=
  .updateContext h fun C hC => by
    obtain ⟨-, hpush⟩ := Context.add_eq_ok (Context.addVar_eq_ok hC).2
    exact ⟨⟨h.restores.addVar hC hname.name hname.free, trans_of R h.also (Oblivious.withContext s₁ C),
      fun hG hns => (h.grows hG hns).trans (.addVar hC)⟩, hpush ▸ hP⟩

/-- **A word is drawn and a variable is declared under it.** -/
theorem declare_keeps {var : String → VarDecl} (h : ∀ w, (var w).name = w) :
    (do let w ← word
        updateContext (·.addVar ns (.var (var w)))
        return var w : Gen VarDecl).Always (Keeps G R) :=
  .of_yields fun s => (word_yields (refl_of (Keeps G R) s)).seq fun w _ h₁ hw =>
    (addVar_yields (P := fun _ _ => True) h₁ ((h w).symm ▸ hw.1) trivial).seq
      fun _ _ h₂ _ => ⟨h₂, fun _ _ => trivial⟩

theorem makeMutable_keeps : (makeMutable name).Always (Keeps G R) := by
  unfold makeMutable
  refine .get fun s => modifyContext_keeps (fun s' => .modify (fun d => ?_) fun d v hv => ?_) fun _ c =>
    .modify (fun d => ?_) (fun d _ hd => ?_) fun d => ?_
  · cases d <;> exact ⟨rfl, .inl rfl⟩
  · cases d <;> cases hv
    exact ⟨_, rfl⟩
  · cases d <;> rfl
  · cases d <;> exact hd
  · cases d <;> rfl

end Gen

end ProgramGen

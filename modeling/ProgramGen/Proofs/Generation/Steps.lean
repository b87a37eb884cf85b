import ProgramGen.Proofs.Generation.Bind
import ProgramGen.Proofs.Typing.Classes

/-!
# Single steps

The operations that the generator is built from: names that are drawn or counted, and what is
registered under them. None of them fails where it is used.
-/

namespace ProgramGen

namespace Session

variable {s s' s₀ : Session} {P : Permit} {ns m : Namespace} {d : Decl} {n w : String} {c : ClassDecl}
variable {v : VarDecl} {C : Context}

/-! ## Names -/

/-- A name that nothing has and that comes no more. -/
structure NewName (s : Session) (n : String) (s' : Session) : Prop where
  passes : s.Passes s'
  context : s'.context = s.context
  unspent : ¬s.Spent n
  spent : s'.Spent n

theorem NewName.step (h : s.NewName n s') (hs : s.Sound) : s.Step P s' :=
  .of_context hs h.passes h.context

theorem NewName.not_taken (h : s.NewName n s') (hs : s.Sound) : ¬s.Taken n := fun ht =>
  h.unspent (hs.taken n ht)

theorem taken_of_context (h : s'.context = s.context) : s'.Taken n ↔ s.Taken n := by
  unfold Taken
  rw [decls_of_context h]

theorem spent_withContext : (s.withContext C).Spent n ↔ s.Spent n :=
  ⟨spent_of_source (fun _ h => h) le_rfl le_rfl le_rfl,
    spent_of_source (fun _ h => h) le_rfl le_rfl le_rfl⟩

theorem Passes.withContext (hs : s.Sound) (C : Context) : s.Passes (s.withContext C) :=
  ⟨fun _ => spent_withContext.mpr, hs.pool, rfl, rfl, rfl, rfl⟩

theorem Passes.trans {s₁ s₂ s₃ : Session} (h : s₁.Passes s₂) (h' : s₂.Passes s₃) : s₁.Passes s₃ :=
  ⟨fun n hn => h'.spent n (h.spent n hn), h'.pool, h'.language.trans h.language,
    h'.config.trans h.config, h'.frame.trans h.frame, h'.unfinished.trans h.unfinished⟩

/-- The session after a draw from the pool. -/
theorem passes_of_drawn {src : Source} (h : s.source.pool.Drawn w src.pool) :
    s.Passes { s with source := src } :=
  ⟨fun _ => spent_of_source h.offers le_rfl le_rfl le_rfl, h.sound, rfl, rfl, rfl, rfl⟩

/-- The session with other counters. -/
theorem passes_of_counts {hoisted : Std.HashMap Namespace Nat} {lambdas loops branches : Nat}
    (hs : s.Sound) (hlambda : s.lambdaCount ≤ lambdas) (hloop : s.loopCount ≤ loops)
    (hbranch : s.branchCount ≤ branches) :
    s.Passes { s with
      hoisted := hoisted, lambdaCount := lambdas, loopCount := loops, branchCount := branches } :=
  ⟨fun _ => spent_of_source (fun _ h => h) hlambda hloop hbranch, hs.pool, rfl, rfl, rfl, rfl⟩

theorem startsUppercase_counted {stem t : String} (h : stem ∈ countedStems) :
    startsUppercase (stem ++ t) = false :=
  (startsLower_of_mem_countedStems h t).startsUppercase

theorem newName_lambda (hs : s.Sound) :
    s.NewName ("lambda_" ++ toString (s.lambdaCount + 1))
      { s with lambdaCount := s.lambdaCount + 1 } := by
  have hp : s.Passes { s with lambdaCount := s.lambdaCount + 1 } :=
    passes_of_counts hs (Nat.le_succ _) le_rfl le_rfl
  have hmem : ∀ s' : Session, ("lambda_", s'.lambdaCount) ∈ s'.counters := fun _ => List.mem_cons_self
  exact ⟨hp, rfl, fun h => h (.counted (hmem s) (Nat.lt_succ_self _)),
    spent_of_counter hp.pool (hmem _) le_rfl⟩

theorem newName_loop (hs : s.Sound) :
    s.NewName ("loop_" ++ toString (s.loopCount + 1)) { s with loopCount := s.loopCount + 1 } := by
  have hp : s.Passes { s with loopCount := s.loopCount + 1 } :=
    passes_of_counts hs le_rfl (Nat.le_succ _) le_rfl
  have hmem : ∀ s' : Session, ("loop_", s'.loopCount) ∈ s'.counters := fun _ =>
    List.mem_cons_of_mem _ List.mem_cons_self
  exact ⟨hp, rfl, fun h => h (.counted (hmem s) (Nat.lt_succ_self _)),
    spent_of_counter hp.pool (hmem _) le_rfl⟩

theorem newName_branch (hs : s.Sound) {stem : String} (h : stem = "true_block_" ∨ stem = "false_block_") :
    s.NewName (stem ++ toString (s.branchCount + 1)) { s with branchCount := s.branchCount + 1 } := by
  have hp : s.Passes { s with branchCount := s.branchCount + 1 } :=
    passes_of_counts hs le_rfl le_rfl (Nat.le_succ _)
  have hmem : ∀ s' : Session, (stem, s'.branchCount) ∈ s'.counters := fun s' => by
    simp only [counters, countedStems, List.zip_cons_cons, List.zip_nil_right]
    rcases h with rfl | rfl <;> simp
  exact ⟨hp, rfl, fun h => h (.counted (hmem s) (Nat.lt_succ_self _)),
    spent_of_counter hp.pool (hmem _) le_rfl⟩

/-! ## New declarations -/

theorem ShapesRoot.var (h : s.ShapesRoot v.init) (hty : v.ty.Plain) : s.Shapes (.var v) where
  depth _ he := List.mem_singleton.mp he ▸ h.depth
  values hl _ he := List.mem_singleton.mp he ▸ h.value hl
  types := Decl.TypesPlain.formed (d := .var v) hty nofun

/-- A variable under a name that was just drawn. -/
theorem NewName.registers_var (h : s.NewName v.name s') (hs : s.Sound)
    (hC : ∀ m, C.scope m = (s.context.push ns (.var v)).scope m) (hopened : s'.Opened ns)
    (hclass : ns.className? = none) (hpermitted : ns = .global ∨ P.scopes ns ∨ ¬s.Opened ns)
    (hty : v.ty.Plain) (htop : ns = .global → s.Fits .global none noTargets fun w => [(w, v.init)])
    (hroot : s.ShapesRoot v.init) (hhere : ns = s.frame.ns → ns ≠ .global → s.DeclFits (.var v)) :
    Registers P s (s'.withContext C) ns (.var v) where
  scopes := hC
  kind := nofun
  member hm := absurd hclass hm
  field := nofun
  welcome := welcomes_of_fresh (fun n hn => by rw [List.mem_singleton.mp hn]; exact h.not_taken hs) hty
    nofun
  opened n hn := spent_withContext.mpr (hopened n hn)
  spent n hn := by
    rw [List.mem_singleton.mp hn]
    exact spent_withContext.mpr h.spent
  permitted := hpermitted
  taken n hn hspent := by
    rw [List.mem_singleton.mp hn] at hspent
    exact absurd hspent h.unspent
  mutables x hx _ := by
    cases hx
    exact h.unspent
  params := nofun
  top := htop
  shapes := hroot.var hty
  here hns hglobal _ _ := hhere hns hglobal

/-- A parameter under a name that only parameters have. -/
theorem registers_param {p : ParamDecl} (hC : ∀ m, C.scope m = (s.context.push ns (.param p)).scope m) (hopened : s.Opened ns)
    (hclass : ns.className? = none) (hglobal : ns ≠ .global) (hP : P.scopes ns) (hmaking : P.making ns)
    (hty : p.ty.Plain)
    (hspent : s.Spent p.name) (hkeys : ∀ d ∈ s.decls ns, d.name ≠ p.name)
    (hnames : ∀ m, ∀ d ∈ s.decls m, d.name = p.name → ∃ q, d = .param q)
    (hperm : s.Taken p.name ∨ P.names p.name) (hshaped : s.Shapes (.param p)) :
    Registers P s (s.withContext C) ns (.param p) where
  scopes := hC
  kind := nofun
  member hm := absurd hclass hm
  field := nofun
  welcome :=
    { keys := fun d hd _ => hkeys d hd
      unique := fun m d hd hname => by
        obtain ⟨q, rfl⟩ := hnames m d hd hname
        trivial
      params := fun _ _ _ _ _ _ => ⟨p, rfl⟩
      ownParams := nofun
      types := hty }
  opened n hn := spent_withContext.mpr (hopened n hn)
  spent n hn := by
    rw [List.mem_singleton.mp hn]
    exact spent_withContext.mpr hspent
  permitted := .inr (.inl hP)
  taken n hn _ := by
    rw [List.mem_singleton.mp hn]
    exact hperm
  mutables := nofun
  params _ _ _ := hmaking
  top h := absurd h hglobal
  shapes := hshaped
  here _ _ hparam := absurd rfl (hparam p)

end Session

/-! ## Registration -/

namespace Context

variable {c : Context} {ns : Namespace} {d : Decl} {p : TypeParam}

/-- A registration is accepted where nothing has the kind and name. -/
theorem add_eq_push (h : ∀ d' ∈ c.declarations ns, d'.kind = d.kind → d'.name ≠ d.name) :
    c.add ns d = .ok (c.push ns d) := by
  have hfree : (c.scope ns).binds d.kind d.name = false := by
    refine List.any_eq_false.mpr fun d' hd' => ?_
    simp only [Bindings.isNamed, Bool.and_eq_true, beq_iff_eq, not_and]
    exact h d' hd'
  unfold add
  dsimp only
  rw [hfree, if_neg (by simp)]
  rfl

theorem addVar_eq_push (hkind : d.kind = .var)
    (h : ∀ d' ∈ c.declarations ns, d'.kind = d.kind → d'.name ≠ d.name) :
    c.addVar ns d = .ok (c.push ns d) := by
  rw [addVar, if_pos hkind, add_eq_push h]

theorem addType_eq_push (h : ∀ q ∈ (c.scope ns).types, q.name ≠ p.name) :
    c.addType ns p = .ok (c.pushType ns p) := by
  have hfree : (c.scope ns).types.any (·.name == p.name) = false :=
    List.any_eq_false.mpr fun q hq => by simpa using h q hq
  unfold addType
  dsimp only
  rw [hfree, if_neg (by simp)]
  rfl

/-- The symbol table with one more member of a class. -/
def attached (C : Context) (c : ClassDecl) (d : Decl) : Context :=
  (C.modifyClass .global c.name (·.withMember d)).push c.scope d

end Context

namespace Gen

open Session

variable {s s' s₀ : Session} {P : Permit} {ns m : Namespace} {d : Decl} {n w : String} {c : ClassDecl}

theorem word_step (hs : s.Sound) : word.Ensures (Step P) s fun w s' =>
    s.NewName w s' ∧ startsUppercase w = false := by
  have hdrawn := WordPool.drawn_word hs.pool s.source.stream
  have hrun : word.runIn s = (.ok s.source.word.1, { s with source := s.source.word.2 }) := rfl
  have hname : s.NewName s.source.word.1 { s with source := s.source.word.2 } :=
    ⟨passes_of_drawn hdrawn, rfl, fun h => h (.word hdrawn.offered), (spent_of_drawn hs.pool hdrawn).1⟩
  exact .of_ok hrun (.of_context rfl) ⟨hname.step hs, hname, (hdrawn.offered.startsLower hs.pool).startsUppercase⟩

/-- A name for a class is in uppercase, and no class of the language has it. -/
theorem className_step (hs : s.Sound) : className.Ensures (Step P) s fun n s' =>
    s.NewName n s' ∧ startsUppercase n ∧ ∀ (l : Language) (d : TypeCtor), l.HasClass d → d.name ≠ n := by
  have hdrawn := WordPool.drawn_word hs.pool s.source.stream
  have hrun : className.runIn s =
      (.ok (capitalize s.source.word.1), { s with source := s.source.word.2 }) := rfl
  have hname : s.NewName (capitalize s.source.word.1) { s with source := s.source.word.2 } :=
    ⟨passes_of_drawn hdrawn, rfl, fun h => h (.className hdrawn.offered),
      (spent_of_drawn hs.pool hdrawn).2⟩
  exact .of_ok hrun (.of_context rfl) ⟨hname.step hs, hname,
    (hdrawn.offered.startsLower hs.pool).startsUppercase_capitalize,
    fun l d hd => hd.name_ne_capitalize hs.pool hdrawn.offered⟩

/-- Counters change nothing else. -/
theorem counts_step {change : Session → Session} (hs : s.Sound) (hp : s.Passes (change s))
    (hcontext : (change s).context = s.context) :
    (modify change : Gen Unit).Ensures (Step P) s fun _ s' => s' = change s :=
  .modify (.of_context hcontext) (.of_context hs hp hcontext) rfl

theorem addVar_step (hs : s₀.Sound) (hp : s₀.Passes s) (hc : s.context = s₀.context) (hkind : d.kind = .var)
    (h : Registers P s₀ (s.withContext (s.context.push ns d)) ns d) :
    (updateContext (·.addVar ns d)).Ensures (fun _ s' => s₀.Step P s') s fun _ s' =>
      s' = s.withContext (s.context.push ns d) := by
  have hcourse : s.Course (s.withContext (s.context.push ns d)) := (Course.of_context hc.symm).trans h.course
  refine .updateContext (Context.addVar_eq_push hkind ?_) hcourse (h.step hs ?_) rfl
  · rw [hc]
    exact h.welcome.keys
  · exact ⟨fun n hn => spent_withContext.mpr (hp.spent n hn), hp.pool,
      hp.language, hp.config, hp.frame, hp.unfinished⟩

theorem addDecl_step (hs : s.Sound) (h : Registers P s (s.withContext (s.context.push ns d)) ns d) :
    (addDecl ns d).Ensures (Step P) s fun _ s' => s' = s.withContext (s.context.push ns d) :=
  .updateContext (Context.add_eq_push h.welcome.keys) h.course (h.step hs (.withContext hs _)) rfl

theorem addClass_step (hs : s.Sound)
    (h : Declares s (s.withContext (s.context.push .global (.cls c))) c)
    (hP : s.Spent c.name → P.names c.name) :
    (addDecl .global (.cls c)).Ensures (Step P) s fun _ s' =>
      s' = s.withContext (s.context.push .global (.cls c)) := by
  have hstep : s.Step P (s.withContext (s.context.push .global (.cls c))) := h.step hs (.withContext hs _) hP
  refine .updateContext (Context.add_eq_push fun d' hd' _ hname => ?_) (.pushClass rfl hstep.sound.kept) hstep rfl
  have hmem : d'.name ∈ d'.names := Sound.name_mem_names d'
  rw [hname] at hmem
  exact h.free ⟨.global, d', hd', hmem⟩

theorem addType_step {p : TypeParam} (hs : s.Sound) (hopened : s.Opened ns) (hP : P.scopes ns)
    (hmaking : P.making ns) (hns : ns ≠ .global) (hown : ∀ c ∈ s.classes, c.scope ≠ ns)
    (hp : ParamFits ns p) (hfree : ∀ q ∈ (s.context.scope ns).types, q.name ≠ p.name) :
    (addType ns p).Ensures (Step P) s fun _ s' => s' = s.withContext (s.context.pushType ns p) := by
  refine .updateContext (Context.addType_eq_push hfree)
    (.of_declarations fun m => Context.declarations_pushType) ?_ rfl
  refine .of_decls hs (.withContext hs _) (fun m => Context.declarations_pushType) (fun m hm => ?_) hopened
    hP hmaking hns hown fun q hq => ?_
  · rw [Session.context_withContext, Context.pushType, Context.scope_set, if_neg (Ne.symm hm)]
  · rw [Session.context_withContext, Context.types_pushType, if_pos rfl, List.mem_append] at hq
    refine hq.imp_right fun hq => ?_
    rw [List.mem_singleton.mp hq]
    exact hp

/-! ## Members -/

/-- The run of an attachment that is not refused. -/
theorem runIn_attach (hclass : s.context.class? .global c.name false = some c) (hname : c.scope.className? = some c.name)
    (hmember : d.isMember)
    (hadd : (s.context.modifyClass .global c.name (·.withMember d)).add c.scope d = .ok (s.context.attached c d)) :
    (attach c.scope d).runIn s = (.ok (), s.withContext (s.context.attached c d)) := by
  have hlisted : (addMember c.name d).runIn s =
      (.ok (), s.withContext (s.context.modifyClass .global c.name (·.withMember d))) := by
    unfold addMember
    rw [runIn_bind, show (get : Gen Session).runIn s = (.ok s, s) from rfl]
    dsimp only
    rw [hclass]
    cases d with
    | field f => rfl
    | func f => rfl
    | _ => cases hmember
  have hbound : (addDecl c.scope d).runIn (s.withContext (s.context.modifyClass .global c.name (·.withMember d))) =
      (.ok (), s.withContext (s.context.attached c d)) := by
    simp only [runIn, addDecl, updateContext, context_withContext, hadd]
    rfl
  unfold attach
  rw [hname, runIn_bind, hlisted]
  exact hbound

theorem attach_step (hs : s₀.Sound) (hp : s₀.Passes s) (hc : s.context = s₀.context)
    (h : Attaches P s₀ (s.withContext (s.context.attached c d)) c d) :
    (attach c.scope d).Ensures (fun _ s' => s₀.Step P s') s fun _ s' =>
      s' = s.withContext (s.context.attached c d) := by
  have hfinal : s₀.Step P (s.withContext (s.context.attached c d)) := h.step hs
    ⟨fun n hn => spent_withContext.mpr (hp.spent n hn), hp.pool,
      hp.language, hp.config, hp.frame, hp.unfinished⟩
  have hrun : (attach c.scope d).runIn s = (.ok (), s.withContext (s.context.attached c d)) := by
    refine runIn_attach ?_ (hs.className?_scope h.mem) h.member (Context.add_eq_push fun d' hd' => ?_)
    · rw [hc]
      exact hs.class?_eq h.mem
    · rw [declarations_modifyClass, if_neg (scope_ne_global c), hc] at hd'
      exact h.welcome.keys d' hd'
  exact .of_ok hrun (.of_kept (.attach _ _ hrun) hfinal.sound.kept) ⟨hfinal, rfl⟩

/-- What is no member is registered only. -/
theorem attach_eq (h : ns.className? = none) : attach ns d = addDecl ns d := by
  unfold attach
  rw [h]

/-! ## Functions that are completed -/

variable {f f₀ : FuncDecl}

theorem isSome_func? (hf : .func f₀ ∈ s.decls ns) :
    (s.context.func? ns f₀.name false).isNone = false := by
  rw [Option.isNone_eq_false_iff, Context.func?, List.find?_isSome]
  refine ⟨f₀, List.mem_filterMap.mpr ⟨.func f₀, ?_, rfl⟩, by simp⟩
  exact Context.mem_own.mpr ⟨hf, rfl⟩

theorem runIn_updateFunc (hf : .func f₀ ∈ s.decls ns) (hname : f.name = f₀.name) :
    (updateFunc ns f).runIn s = (.ok (), s.withContext (match ns.className? with
      | none => s.replaced ns f
      | some n => (s.replaced ns f).modifyClass .global n (·.withFunc f))) := by
  have hsome : (s.context.func? ns f.name false).isNone = false := hname ▸ isSome_func? hf
  show (if (s.context.func? ns f.name false).isNone then _ else _ : Gen Unit).runIn s = _
  rw [hsome, if_neg (by simp)]
  cases ns.className? <;> rfl

theorem updateFunc_step (hs : s.Sound) (h : Replaces P s ns f₀ f) (hclass : ns.className? = none)
    (htop : ns = .global → s.Fits .global none noTargets (f.places ·))
    (hhere : ns = s.frame.ns → ns ≠ .global → s.DeclFits (.func f)) :
    (updateFunc ns f).Ensures (Step P) s fun _ s' => s' = s.withContext (s.replaced ns f) := by
  have hrun := runIn_updateFunc h.mem h.name_eq
  rw [hclass] at hrun
  have hstep : s.Step P (s.withContext (s.replaced ns f)) := h.step hs (.withContext hs _) rfl hclass htop hhere
  exact .of_ok hrun (.of_kept (.updateFunc _ _ hrun) hstep.sound.kept) ⟨hstep, rfl⟩

theorem updateMethod_step (hs : s.Sound) (h : Replaces P s c.scope f₀ f) (hc : c ∈ s.classes)
    (hmaking : s.isUnfinished c.name) (hP : P.making c.scope) (hf : s.MethodOk c f) :
    (updateFunc c.scope f).Ensures (Step P) s fun _ s' => s' = s.withContext
      ((s.replaced c.scope f).modifyClass .global c.name (·.withFunc f)) := by
  have hrun := runIn_updateFunc h.mem h.name_eq
  rw [hs.className?_scope hc] at hrun
  have hstep := h.stepMethod rfl hs (.withContext hs _) hc hmaking hP hf
  exact .of_ok hrun (.of_kept (.updateFunc _ _ hrun) hstep.sound.kept) ⟨hstep, rfl⟩

end Gen

end ProgramGen

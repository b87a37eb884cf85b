import ProgramGen.Proofs.Generation.Program

/-!
# Generated programs

The run that generates a program is a course of steps to a sound session in which no class is in the
making any more. So what is known of sound sessions is known of the program: of each expression at
each place, of each declaration, and of each class.
-/

namespace ProgramGen

/-- From the source a program is generated that satisfies `P`, unless two types cannot be made equal. -/
def Source.Generates (source : Source) (config : Config) (l : Language) (P : Program → Prop) : Prop :=
  match (source.program config l).1 with
  | .ok p => P p
  | .error e => e.kind = .unification

/-- The declarations of a program: those of the top level, the members of classes, and what is declared
inside expressions, at any depth. -/
inductive Program.Declares (p : Program) : Decl → Prop where
  | top {d} (hd : d ∈ p.topLevel) : Declares p d
  | field {c f} (hc : .cls c ∈ p.topLevel) (hf : f ∈ c.fields) : Declares p (.field f)
  | method {c f} (hc : .cls c ∈ p.topLevel) (hf : f ∈ c.funcs) : Declares p (.func f)
  | inner {v e d} (he : p.Contains v e) (hd : d ∈ e.decls) : Declares p d

namespace Session

variable {s : Session} {c : ClassDecl} {d : Decl} {e : Expr} {v : Visibility}

/-- The program that a session has generated. -/
def program (s : Session) : Program := ⟨s.language, s.context⟩

/-- What is known of the session that a program is taken from. -/
structure Ended (s : Session) (config : Config) (l : Language) : Prop where
  sound : s.Sound
  params : ∀ p, .param p ∉ s.decls .global
  finished : ∀ n, s.isUnfinished n = false
  config : s.config = config
  language : s.language = l

/-! ## What is seen -/

namespace Sound

variable (hs : s.Sound)
include hs

/-- The top level sees its variables for what they are. -/
theorem admits_variables {T : String → Prop} (hT : ∀ n, T n → s.HasMutable .global n) :
    s.Admits .global none T s.program.variables := by
  have hvar : ∀ {n a}, (n, a) ∈ s.program.variables → ∃ x : VarDecl, .var x ∈ s.decls .global ∧ x.name = n ∧
      a = if x.isFinal then .constant else .shared := by
    intro n a h
    obtain ⟨d, hd, heq⟩ := List.mem_filterMap.mp h
    cases d <;> cases heq
    exact ⟨_, hd, rfl, rfl⟩
  refine ⟨fun n h => ?_, fun n h => ?_, fun n h => ?_, fun n hn => ?_⟩
  · obtain ⟨x, hx, rfl, ha⟩ := hvar h
    refine hs.not_isMutable (d := .var x) hx (fun y hy => ?_) nofun
    cases hy
    by_contra hchanges
    rw [if_neg hchanges] at ha
    cases ha
  · obtain ⟨x, -, -, ha⟩ := hvar h
    split at ha <;> cases ha
  · obtain ⟨x, -, -, ha⟩ := hvar h
    split at ha <;> cases ha
  · obtain ⟨x, hx, rfl, hchanges⟩ := hT n hn
    exact ⟨_, List.mem_filterMap.mpr ⟨.var x, hx, rfl⟩⟩

/-- A class sees its fields in front of the variables of the top level. -/
theorem admits_fields (hc : c ∈ s.classes) :
    s.Admits c.scope none (s.Shared c.scope) (c.variables ++ s.program.variables) := by
  refine ((hs.admits_variables (T := s.HasMutable .global) fun _ h => h).child (x := c.name)).prepend
    (fun n a h => ?_) fun n hn => ?_
  · obtain ⟨f, hf, heq⟩ := List.mem_map.mp h
    cases heq
    split
    · refine .inl ⟨rfl, hs.not_isMutable (d := .field f) (hs.field_mem hc hf) nofun fun g hg => ?_⟩
      cases hg
      assumption
    · exact .inr (.inl rfl)
  · rcases hn with hn | ⟨x, rest, hns, -, d, hd, hname, f, hf, rfl, hchanges⟩
    · exact .inl hn
    · have hx : c.name = x := (List.cons.inj (List.cons.inj (hns : [_, c.name] = _)).2).1
      obtain rfl := hs.class_eq hd hc (hname.trans hx.symm)
      exact .inr ⟨_, List.mem_map.mpr ⟨f, hf, rfl⟩⟩

/-! ## Classes -/

/-- The members of a class are well formed, and so is the class. -/
theorem shapes_class (hc : c ∈ s.classes) : s.Shapes (.cls c) := by
  have hok := hs.classes c hc
  have hfunc : ∀ f ∈ c.funcs, s.Shapes (.func f) := fun f hf =>
    hs.shaped c.scope _ (hs.func_mem hc hf) nofun
  have hfield : ∀ f ∈ c.fields, s.Shapes (.field f) := fun f hf =>
    hs.shaped c.scope _ (hs.field_mem hc hf) nofun
  refine ⟨fun e he => ?_, fun hl e he => ?_, fun t ht => ?_⟩
  · obtain ⟨x, hx, rfl⟩ := List.mem_map.mp he
    rcases List.mem_append.mp hx with hx | hx
    · obtain ⟨a, ha, rfl⟩ := List.mem_map.mp hx
      exact (hok.superRoots a ha).depth
    · obtain ⟨f, hf, hx⟩ := List.mem_flatMap.mp hx
      exact (hfunc f hf).depth _ (Decl.mem_roots (d := .func f) hx)
  · rcases List.mem_append.mp he with he | he
    · exact (hok.superRoots e he).value hl
    · obtain ⟨f, hf, he⟩ := List.mem_flatMap.mp he
      exact (hfunc f hf).values hl e he
  · rcases ClassDecl.mem_types.mp ht with ht | ⟨f, hf, rfl⟩ | ⟨f, hf, ht⟩
    · simp only [ClassDecl.types, ClassDecl.header, ClassDecl.fieldTypes, ClassDecl.supertypes, List.map_nil,
        List.append_nil, List.flatMap_nil, List.mem_append] at ht
      rcases ht with ht | ht
      · obtain ⟨p, hp, rfl⟩ := List.mem_map.mp ht
        exact (hok.plain.params p hp).formed
      · exact (hok.plain.supers t ht).formed
    · exact (hfield f hf).types _ (List.mem_singleton_self _)
    · exact (hfunc f hf).types t ht

end Sound

/-! ## What is in sight -/

namespace Ended

variable {config : Config} {l : Language} (hs : s.Ended config l)
include hs

/-- Of what the top level declares only variables are in sight. -/
theorem shows_variables : s.Shows (s.InSight .global True) s.program.variables := by
  rintro n ⟨m, hm, d, hd, hkind, rfl, -⟩
  obtain rfl : m = .global := List.mem_singleton.mp hm
  cases d with
  | var x => exact resolves_of_mem (List.mem_filterMap.mpr ⟨_, hd, rfl⟩)
  | param p => exact absurd hd (hs.params p)
  | field f =>
    obtain ⟨c, -, heq⟩ := hs.sound.fields _ f hd
    exact absurd heq.symm (scope_ne_global c)
  | _ => cases hkind

/-- A class has its fields in sight and what is in sight at the top level. -/
theorem shows_fields (hc : c ∈ s.classes) :
    s.Shows (s.InSight c.scope True) (c.variables ++ s.program.variables) := by
  rintro n ⟨m, hm, d, hd, hkind, rfl, -⟩
  rcases Namespace.mem_lineage_child_global hm with heq | rfl
  · have hclass : m.className? ≠ none := by
      rw [heq, Namespace.className?_classScope (hs.sound.classes c hc).named]
      nofun
    obtain ⟨f, rfl⟩ := hs.sound.classScopes m hclass d hd hkind
    have hf : f ∈ c.fields := by
      rw [(hs.sound.members c hc).1]
      exact List.mem_filterMap.mpr ⟨_, heq ▸ hd, rfl⟩
    exact resolves_of_mem (List.mem_append_left _ (List.mem_map.mpr ⟨f, hf, rfl⟩))
  · refine resolves_append (hs.shows_variables _ ⟨_, ?_, d, hd, hkind, rfl, fun _ => .inl trivial⟩)
    exact Namespace.self_mem_lineage rfl

/-! ## Expressions -/

/-- What stands in a declaration of the top level is disciplined. -/
theorem disciplined_places (hd : d ∈ s.program.topLevel) : ∀ x ∈ d.places s.program.variables,
    x.2.Disciplined s.context s.language (rootDepth s.maxDepth) x.1 := by
  have hnone : ∀ n, s.Shared .global n ∨ noTargets.targets n → s.HasMutable .global n := by
    rintro n ((hn | ⟨_, _, h, -⟩) | hn)
    · exact hn
    · cases h
    · exact hn.elim
  have hvariables := hs.sound.admits_variables hnone
  by_cases hkind : d.kind = .cls
  · cases d with
    | cls c =>
      have hc : c ∈ s.classes := Context.mem_classes_global.mpr hd
      have hok := hs.sound.classes c hc
      intro x hx
      rcases List.mem_append.mp hx with hx | hx
      · exact hok.superArgs s (.refl s) _ hvariables hs.shows_variables x hx
      · obtain ⟨f, hf, hx⟩ := List.mem_flatMap.mp hx
        exact hok.bodies f hf s (.refl s) _
          ((hs.sound.admits_fields hc).targets_mono fun n hn => hn.resolve_right id) (hs.shows_fields hc) x hx
    | _ => cases hkind
  · exact hs.sound.trees d hd hkind s (.refl s) _ hvariables hs.shows_variables

/-- **All expressions of the program are disciplined.** -/
theorem disciplined (h : s.program.Contains v e) :
    e.Disciplined s.context s.language (rootDepth s.maxDepth) v :=
  h.disciplined fun _ => hs.disciplined_places

/-- **All declarations of the program are well formed.** -/
theorem shapes (h : s.program.Declares d) : s.Shapes d := by
  have hsound := hs.sound
  cases h with
  | top hd =>
    by_cases hkind : d.kind = .cls
    · cases d with
      | cls c => exact hsound.shapes_class (Context.mem_classes_global.mpr hd)
      | _ => cases hkind
    · exact hsound.shaped .global d hd hkind
  | field hc hf => exact hsound.shaped _ _ (hsound.field_mem (Context.mem_classes_global.mpr hc) hf) nofun
  | method hc hf => exact hsound.shaped _ _ (hsound.func_mem (Context.mem_classes_global.mpr hc) hf) nofun
  | inner he hd =>
    obtain ⟨-, -, -, hshaped, -⟩ := hs.disciplined he
    exact (hshaped.decls d hd).1

end Ended

end Session

/-! ## The run -/

open Session

/-- **A program is generated by steps**, and it is what the session has declared. -/
theorem Gen.genProgram_ensures (seed : UInt64) (config : Config) (l : Language) :
    genProgram.Ensures (Step .all) (.start (.ofSeed seed l) config l) fun p s' => p = s'.program := by
  have hstart : (start (.ofSeed seed l) config l).BeforeMain config.engine :=
    beforeMain_start (WordPool.sound_full l) (Engine.serves_engine config)
  refine .get ?_
  refine (genDeclarations_ensures hstart).bind fun _ s h _ => .get ?_
  exact .pure (.refl h.sound) rfl

/-- **What holds of all sound sessions that have come to their end holds of all generated programs.** -/
theorem Source.generates (seed : UInt64) (config : Config) (l : Language) {P : Program → Prop}
    (h : ∀ s : Session, s.Ended config l → P s.program) : (Source.ofSeed seed l).Generates config l P := by
  have hrun := Gen.genProgram_ensures seed config l
  unfold Source.Generates Source.program
  unfold Gen.Ensures at hrun
  generalize Gen.genProgram.runIn (.start (.ofSeed seed l) config l) = r at hrun
  obtain ⟨-, hresult⟩ := hrun
  obtain ⟨e | p, s⟩ := r
  · exact hresult
  · obtain ⟨hstep, rfl⟩ := hresult
    have hparams : ∀ p, .param p ∉ s.decls .global := fun p hp => by
      have hmem := hstep.params _ (sound_start (WordPool.sound_full l)).here (fun h : _ ≠ _ => h rfl) p hp
      rw [decls_start] at hmem
      cases hmem
    exact h s ⟨hstep.sound, hparams, fun n => by rw [isUnfinished, hstep.unfinished]; rfl, hstep.config, hstep.language⟩

/-- **The generator comes to an end, and no check of its own fails.** No bound on the recursion is
reached, nothing is bound twice or lost, no member goes to what is no class, and there is always
something to choose. What is left is that two types cannot be made equal. -/
theorem Source.program_ends (seed : UInt64) (config : Config) (l : Language) :
    (Source.ofSeed seed l).Generates config l fun _ => True :=
  Source.generates seed config l fun _ _ => trivial

end ProgramGen

import ProgramGen.Emit.Source
import ProgramGen.Proofs.Emit.Java
import ProgramGen.Proofs.Generated.Program

/-!
# The trees of generated programs

What every generated program keeps to, at each place and at any depth: how variables are accessed and
functions called, which closures implement interfaces, how deep roots are, and which types occur.
-/

namespace ProgramGen

open Session

/-! ## Variables -/

/-- **Only what changes is assigned, and closures see nothing change around them.** Each expression of a
generated program that assigns or steps a variable has one in sight that the place may assign: a field
or a variable of the top level, or a local one of the same closure, and none of them is final. What is
assigned through a receiver is a field that changes wherever there is one of the name. And no variable
that is read is a changing local one from outside the closure that it is read in. -/
theorem Source.accesses (seed : UInt64) (config : Config) (l : Language) :
    (Source.ofSeed seed l).Generates config l fun p => ∀ v e, p.Contains v e → e.Accesses p.context v := by
  refine Source.generates seed config l fun s hs v e h => ?_
  obtain ⟨haccess, -, -, -, -⟩ := hs.disciplined h
  exact haccess

/-- **What is read is in sight, or named like a local variable of a loop.** Each variable that an expression
of a generated program reads, tests or calls is one that its place sees: of the top level, a field of the
class around, a parameter, the variable of a loop, or one that stands in a block around. Only the local
variables of loops are left out, which may be declared when the block has been put together already; and
what is called may be a nested function. -/
theorem Source.reads_resolve (seed : UInt64) (config : Config) (l : Language) :
    (Source.ofSeed seed l).Generates config l fun p => ∀ v e, p.Contains v e → e.Reads p.context v := by
  refine Source.generates seed config l fun s hs v e h => ?_
  obtain ⟨-, hreads, -, -, -⟩ := hs.disciplined h
  exact hreads

/-! ## Calls -/

/-- **Every call has the arguments that its callee takes.** A call in a generated program goes to a variable
of function type or to a method of a builtin type, or else to a declared function: then it has an argument
for each parameter, in Kotlin for each without a default value, and a type argument for each type
parameter, or none at all. -/
theorem Source.calls_take (seed : UInt64) (config : Config) (l : Language) :
    (Source.ofSeed seed l).Generates config l fun p => ∀ v receiver name typeArgs args ret isRef,
      p.Contains v (.call receiver name typeArgs args ret isRef) →
        p.context.Calls p.language receiver name typeArgs args := by
  refine Source.generates seed config l fun s hs v receiver name typeArgs args ret isRef h => ?_
  obtain ⟨-, -, hconstructs, -, -⟩ := hs.disciplined h
  exact hconstructs

/-! ## Depth -/

/-- **No root is deeper than six levels for each level of the limit, and ten more.** The roots are the
bodies of functions, methods and closures, initializers, default values, and arguments for the
constructors of superclasses, at any depth of the program. -/
theorem Source.depth_le_limit (seed : UInt64) (config : Config) (l : Language) :
    (Source.ofSeed seed l).Generates config l fun p =>
      ∀ d, p.Declares d → ∀ e ∈ d.roots, e.depth ≤ 6 * config.limits.maxDepth + 10 := by
  refine Source.generates seed config l fun s hs d hd e he => ?_
  have hdepth := (hs.shapes hd).depth e he
  rwa [rootDepth, maxDepth, hs.config] at hdepth

/-! ## Closures as interfaces -/

/-- The keyword that the emitter chooses for the interfaces of one function. -/
theorem Kotlin.classKeyword_of_isSam {k : Kotlin.Settings} {d : ClassDecl} (hkind : d.kind = .interface)
    (h : isSam k.context d.ownType) : Kotlin.classKeyword k d = "fun interface" := by
  unfold Kotlin.classKeyword
  rw [hkind]
  exact if_pos h

/-- **Closures implement what the emitter declares for them.** Where a closure of a generated program in
Kotlin is used as an object of some type, that is the type of an interface that has one function to
implement at that type and at its own parameters, so that it is declared as an interface for closures;
and the closure has the signature of the function. -/
theorem Source.closures_implement (seed : UInt64) (config : Config) :
    (Source.ofSeed seed .kotlin).Generates config .kotlin fun p =>
      ∀ v f, p.Contains v (.lambda f) → ∀ t ∈ f.samTarget,
        (∃ d ∈ p.context.programClasses, d.name = t.name ∧ d.kind = .interface ∧ isSam p.context d.ownType ∧
          ∀ strict, Kotlin.classKeyword ⟨strict, p.context⟩ d = "fun interface") ∧
        isSam p.context t ∧ samSignature? p.context .kotlin t = some f.signature := by
  refine Source.generates seed config .kotlin fun s hs v f h t ht => ?_
  obtain ⟨-, -, hconstructs, -, -⟩ := hs.disciplined h
  rw [hs.language] at hconstructs
  obtain ⟨⟨d, hd, hname, hkind, hself⟩, hsam, hsignature⟩ := hconstructs t ht
  exact ⟨⟨d, hd, hname, hkind, hself, fun _ => Kotlin.classKeyword_of_isSam hkind hself⟩, hsam, hsignature⟩

/-! ## Text -/

/-- **Every program in Java can be written.** In a generated program no block and no loop stands where a
value is needed: not among the parts that an expression takes its value from, nor among the initializers,
default values, arguments and results of declarations; and the functions that are declared inside
expressions have bodies. So the emitter has a text for it, placeholders being allowed. -/
theorem Source.java_written (seed : UInt64) (config : Config) :
    (Source.ofSeed seed .java).Generates config .java fun p =>
      (∃ text, p.source false = .ok text) ∧
      (∀ v e, p.Contains v e → ∀ a ∈ e.operands, a.isValue) ∧
      (∀ d, p.Declares d → ∀ e ∈ d.values, e.isValue) ∧
      ∀ v e, p.Contains v e → ∀ f, .func f ∈ e.decls → f.isAbstract = false := by
  refine Source.generates seed config .java fun s hs => ⟨?_, fun v e h => ?_, fun d h => ?_, fun v e h f hf => ?_⟩
  · have hplaces : ∀ d ∈ s.program.topLevel, ∀ x ∈ d.places s.program.variables, Java.Writes x.2 := by
      intro d hd x hx
      have hdisciplined := hs.disciplined_places hd x hx
      rw [hs.language] at hdisciplined
      exact Java.writes_of_disciplined hdisciplined
    obtain ⟨_, page, hrun⟩ := Java.declarations_succeeds (fun d (hd : d ∈ s.program.topLevel) =>
      Java.member_succeeds (hplaces d hd) ((hs.shapes (.top hd)).values hs.language)) .blank
    refine ⟨page.out, ?_⟩
    have hemit : s.program.emit false = Java.declarations false s.program.topLevel := by
      unfold Program.emit
      rw [show s.program.language = .java from hs.language]
    unfold Program.source
    rw [hemit, hrun]
  · obtain ⟨-, -, -, hshaped, -⟩ := hs.disciplined h
    exact hshaped.operands hs.language
  · exact (hs.shapes h).values hs.language
  · obtain ⟨-, -, -, hshaped, -⟩ := hs.disciplined h
    exact (hshaped.decls _ hf).2 f rfl

/-! ## Types -/

namespace Gen

variable {s : Session} {c : TypeCtor} {m : Subst} {t : Ty} {o : TypeOpts}

/-- To look for the types that can be named only draws. -/
theorem candidateTypes_draws : (candidateTypes o).Yields OnlyDraws s fun _ _ => True := by
  unfold candidateTypes
  refine .get ?_
  extract_lets params
  refine (Yields.onlyIf .chance).bind fun b _ _ _ => ?_
  split <;> exact .pure trivial

/-- What a generic class is made into is no class without arguments. -/
theorem instantiate_applied :
    (instantiate c m).Yields OnlyDraws s fun r _ => ∀ x ∈ r, x.1.isConstructor = false := by
  unfold instantiate
  refine .get ?_
  extract_lets l isArray
  refine candidateTypes_draws.bind fun types _ _ _ => .rand fun r stream hr x hx => ?_
  rw [Option.mem_def.mp hx] at hr
  obtain ⟨args, heq, -⟩ := filled_of_instantiate (t := x.1) (m := x.2) hr
  rw [heq]
  rfl

/-- A type that is chosen is no class without arguments, whatever the state. -/
theorem selectType_applied :
    (selectType o).Yields OnlyDraws s fun t _ => t.isConstructor = false := by
  unfold selectType instantiateOrTop
  refine candidateTypes_draws.bind fun types _ _ _ => Yields.pick.bind fun chosen _ _ _ => ?_
  split
  · exact .get .throw
  · refine instantiate_applied.bind fun r _ _ hr => ?_
    split
    · exact .pure (hr _ rfl)
    · exact .get (.pure rfl)
  · rename_i t hbare _
    refine .pure ?_
    cases t <;> first | rfl | exact absurd rfl (hbare _)

/-- A type is narrowed to no class without arguments, unless it is one that nothing is found below. -/
theorem narrow_applied :
    (narrow t).Yields OnlyDraws s fun u _ => u.isConstructor = true → u = t := by
  unfold narrow
  refine .get (Yields.pick.bind fun chosen _ _ _ => ?_)
  split
  · refine instantiate_applied.bind fun r _ _ hr => ?_
    split
    · refine .pure fun h => ?_
      split at h
      · rw [hr _ rfl] at h
        cases h
      · rw [if_neg ‹_›]
    · exact .pure fun _ => rfl
  · rename_i sub hbare _
    refine .pure fun h => ?_
    cases sub <;> first | exact absurd rfl (hbare _) | cases h
  · exact .pure fun _ => rfl

end Gen

/-- **The types of a generated program are fully formed**, those that declarations state and those that
expressions record: none of them contains a projection or a generic class without its arguments, and
each class has as many arguments as parameters. Whatever the state, no bare generic class is selected,
and none is what another type is narrowed to. -/
theorem Source.types_formed (seed : UInt64) (config : Config) (l : Language) :
    ((Source.ofSeed seed l).Generates config l fun p =>
      (∀ d, p.Declares d → ∀ t ∈ d.stated, t.Formed) ∧
      ∀ v e, p.Contains v e → ∀ t ∈ e.types, t.Formed) ∧
    (∀ s o u s', (Gen.selectType o).runIn s = (.ok u, s') → u.isConstructor = false) ∧
    ∀ s t u s', (Gen.narrow t).runIn s = (.ok u, s') → u.isConstructor = true → u = t := by
  refine ⟨Source.generates seed config l fun s hs => ⟨fun d hd => (hs.shapes hd).types, fun v e h => ?_⟩,
    fun s o u s' hrun => ?_, fun s t u s' hrun => ?_⟩
  · obtain ⟨-, -, -, hshaped, -⟩ := hs.disciplined h
    exact hshaped.types
  · exact (Gen.selectType_applied.of_run hrun).2 u rfl
  · exact (Gen.narrow_applied.of_run hrun).2 u rfl

end ProgramGen

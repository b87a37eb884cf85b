import ProgramGen.Proofs.Generated.Program

/-!
# The classes of generated programs

Once a program is generated, all of its classes are finished. What was checked of a superclass when it
was chosen, and of a class when an object of it was made, is true of the classes as they are declared.
-/

namespace ProgramGen

open Session

variable {C : Context} {c d d' : ClassDecl}

/-! ## Members -/

/-- **Regular classes are complete, and members override what they say.** A regular class leaves no
function to be implemented. A function that overrides has the nearest function of its name above the
class, which is not final, and its signature as it is seen through the superclasses on the way; a field
that overrides has the nearest field of its name, which can be overridden, with its type and finality. -/
theorem Source.classes_complete (seed : UInt64) (config : Config) (l : Language) :
    (Source.ofSeed seed l).Generates config l fun p => ∀ c ∈ p.context.programClasses,
      (c.kind = .regular → abstractMembers p.context c.ownType = []) ∧
      (∀ f ∈ c.funcs, f.isOverride → p.context.OverridesFunc c f) ∧
      ∀ f ∈ c.fields, f.isOverride → p.context.OverridesField c f :=
  Source.generates seed config l fun _ hs c hc =>
    have hok := hs.sound.classes c hc
    ⟨hok.complete (hs.finished c.name), hok.keeps.funcs, hok.keeps.fields⟩

/-! ## Superclasses -/

/-- What is above a class is registered before it. -/
theorem Context.mem_before_of_transGen {before after : List ClassDecl} (hdistinct : C.DistinctClasses)
    (hordered : ∀ before c after, C.programClasses = before ++ c :: after →
      ∀ sup ∈ c.supers, ∃ d ∈ before, d.name = sup.ty.name)
    (heq : C.programClasses = before ++ d :: after) (h : Relation.TransGen C.IsSuper d d') : d' ∈ before := by
  have hstep : ∀ {before d after d'}, C.programClasses = before ++ d :: after → C.IsSuper d d' → d' ∈ before := by
    rintro before d after d' heq ⟨hmem, sup, hsup, hname⟩
    obtain ⟨e, he, hename⟩ := hordered before d after heq sup hsup
    have hmem' : e ∈ C.programClasses := heq ▸ List.mem_append_left _ he
    exact hdistinct.eq_of_name hmem' hmem (hename.trans hname.symm) ▸ he
  induction h with
  | single h => exact hstep heq h
  | @tail e d' _ h ih =>
    obtain ⟨b₁, b₂, hsplit⟩ := List.append_of_mem ih
    have heq' : C.programClasses = b₁ ++ e :: (b₂ ++ d :: after) := by
      rw [heq, hsplit, List.append_assoc, List.cons_append]
    rw [hsplit]
    exact List.mem_append_left _ (hstep heq' h)

/-- No class is above itself. -/
theorem Context.not_transGen_self (hdistinct : C.DistinctClasses)
    (hordered : ∀ before c after, C.programClasses = before ++ c :: after →
      ∀ sup ∈ c.supers, ∃ d ∈ before, d.name = sup.ty.name)
    (hd : d ∈ C.programClasses) : ¬Relation.TransGen C.IsSuper d d := fun h => by
  obtain ⟨before, after, heq⟩ := List.append_of_mem hd
  have hmem := mem_before_of_transGen hdistinct hordered heq h
  rw [Context.DistinctClasses, heq, List.map_append, List.map_cons] at hdistinct
  exact (List.nodup_append.mp hdistinct).2.2 _ (List.mem_map_of_mem hmem) _ List.mem_cons_self rfl

/-- **Superclasses are consistent with classes as they are declared, and so are objects.** The superclass
of a class is a class of the program that is registered before it, so that no class is above itself; it is
not final, it is an interface if the class is one, and it gets an argument for each of its fields unless
it is an interface. A new object is one of the top type, without arguments, or one of a regular class,
with an argument for each of its fields. -/
theorem Source.classes_consistent (seed : UInt64) (config : Config) (l : Language) :
    (Source.ofSeed seed l).Generates config l fun p =>
      (∀ before c after, p.context.programClasses = before ++ c :: after →
        ∀ sup ∈ c.supers, ∃ d ∈ before, sup.Suits c d) ∧
      (∀ c ∈ p.context.programClasses, ¬Relation.TransGen p.context.IsSuper c c) ∧
      ∀ v t args, p.Contains v (.new t args) → (t.isTop ∧ args = []) ∨
        ∃ d ∈ p.context.programClasses, d.name = t.name ∧ t.isBuiltin = false ∧ d.kind = .regular ∧
          args.length = d.fields.length := by
  refine Source.generates seed config l fun s hs => ?_
  have hdistinct : s.context.DistinctClasses := hs.sound.distinctClasses
  refine ⟨fun before c after heq sup hsup => ?_, fun c hc =>
    Context.not_transGen_self hdistinct hs.sound.ordered hc, fun v t args h => ?_⟩
  · have hc : c ∈ s.classes := by
      show c ∈ s.context.programClasses
      rw [show s.context.programClasses = before ++ c :: after from heq]
      exact List.mem_append_right _ List.mem_cons_self
    obtain ⟨d, hd, -, hsuits⟩ := (hs.sound.classes c hc).supers sup hsup
    obtain ⟨e, he, hname⟩ := hs.sound.ordered before c after heq sup hsup
    have he' : e ∈ s.classes := by
      show e ∈ s.context.programClasses
      rw [show s.context.programClasses = before ++ c :: after from heq]
      exact List.mem_append_left _ he
    obtain rfl := hs.sound.class_eq he' hd (hname.trans hsuits.name.symm)
    exact ⟨e, he, hsuits⟩
  · obtain ⟨-, -, hconstructs, -, -⟩ := hs.disciplined h
    exact hconstructs

/-! ## Variance -/

/-- The type parameter `p` occurs in none of the types. -/
def TypeParam.AbsentFrom (p : TypeParam) (ts : List Ty) : Prop := ∀ t ∈ ts, t.mentions p.name = false

/-- **Type parameters stand where their variance allows it.** One that comes out of its class only occurs
in no parameter of a method and in no field that changes; one that goes in only occurs in no result and
in no field. And neither occurs in the header of the class or in a bound, be it of the class or of one
of its methods. -/
theorem Source.variance_respected (seed : UInt64) (config : Config) (l : Language) :
    (Source.ofSeed seed l).Generates config l fun p => ∀ c ∈ p.context.programClasses, ∀ q ∈ c.typeParams,
      (q.variance = .covariant → q.AbsentFrom (c.funcs.flatMap (·.paramTypes)) ∧
        q.AbsentFrom ((c.fields.filter (!·.isFinal)).map (·.ty))) ∧
      (q.variance = .contravariant → q.AbsentFrom (c.funcs.map (·.ret)) ∧ q.AbsentFrom c.fieldTypes) ∧
      (q.variance ≠ .invariant → q.AbsentFrom c.supertypes ∧ q.AbsentFrom (c.typeParams.filterMap (·.bound)) ∧
        q.AbsentFrom (c.funcs.flatMap fun f => f.typeParams.filterMap (·.bound))) := by
  refine Source.generates seed config l fun s hs c hc q hq => ?_
  have hok := hs.sound.classes c hc
  have hgeneric : c.isGeneric := by
    unfold ClassDecl.isGeneric
    cases hps : c.typeParams with
    | nil => rw [hps] at hq; cases hq
    | cons => rfl
  obtain ⟨hrespects, -⟩ := hok.varies (.inl hgeneric)
  have habsent : ∀ {ok : Variance → Prop} {t : Ty}, t.Within c.typeParams ok → ¬ok q.variance → t.mentions q.name = false :=
    fun h hvaries => h.mentions hok.distinct hq (hok.plain.letters rfl q hq) hvaries
  refine ⟨fun hv => ⟨fun t ht => ?_, fun t ht => ?_⟩, fun hv => ⟨fun t ht => ?_, fun t ht => ?_⟩,
    fun hv => ⟨fun t ht => ?_, fun t ht => ?_, fun t ht => ?_⟩⟩
  · obtain ⟨f, hf, ht⟩ := List.mem_flatMap.mp ht
    obtain ⟨p, hp, rfl⟩ := List.mem_map.mp ht
    exact habsent ((hrespects.funcs f hf).params p hp) fun h => h hv
  · obtain ⟨f, hf, rfl⟩ := List.mem_map.mp ht
    obtain ⟨hf, hchanges⟩ := List.mem_filter.mp hf
    exact habsent (hrespects.fields f hf) fun h => h.2 (by simpa using hchanges) hv
  · obtain ⟨f, hf, rfl⟩ := List.mem_map.mp ht
    exact habsent (hrespects.funcs f hf).ret fun h => h hv
  · obtain ⟨f, hf, rfl⟩ := List.mem_map.mp ht
    exact habsent (hrespects.fields f hf) fun h => h.1 hv
  · obtain ⟨sup, hsup, rfl⟩ := List.mem_map.mp ht
    exact habsent (hrespects.header sup hsup) hv
  · obtain ⟨p, hp, hb⟩ := List.mem_filterMap.mp ht
    have hsteady : t.Within c.typeParams IsInvariant := fun r hr _ =>
      have h := hok.steady p hp t hb r hr
      ⟨r, h.1, rfl, h.2⟩
    exact habsent hsteady hv
  · obtain ⟨f, hf, ht⟩ := List.mem_flatMap.mp ht
    obtain ⟨p, hp, hb⟩ := List.mem_filterMap.mp ht
    exact habsent ((hrespects.funcs f hf).bounds p hp t hb) hv

end ProgramGen

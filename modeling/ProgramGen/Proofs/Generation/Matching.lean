import ProgramGen.Proofs.Generation.Classes

/-!
# Classes for a type

A class is declared for a type that has no member of it yet, or to implement an abstract type. The
variables of the type become type parameters of the class; their bounds are kept where they depend on
no others.
-/

namespace ProgramGen

open Session

variable {s s' s₀ s₁ s₂ : Session} {t u : Ty} {e : Engine} {P : Permit} {n : String} {c d : ClassDecl}
variable {m : Subst} {p q v : TypeParam} {ps vars : List TypeParam} {taken : List String}

/-! ## Letters for variables -/

/-- The substitution binds variables to the letters `ps`, which do not depend on one another. -/
structure Subst.Letters (m : Subst) (ps : List TypeParam) : Prop where
  letters : ∀ p ∈ ps, p.name ∈ capitalLetters
  invariant : ∀ p ∈ ps, p.variance = .invariant
  bounds : ∀ p ∈ ps, ∀ b ∈ p.bound, b.Plain ∧ b.hasVariables = false
  distinct : (ps.map (·.name)).Nodup
  view : ∀ n u, m.lookup n = some u → ∃ p ∈ ps, u = .param p

namespace Subst.Letters

theorem empty : (∅ : Subst).Letters [] := ⟨nofun, nofun, nofun, .nil, nofun⟩

theorem insert (h : m.Letters ps) (hletter : p.name ∈ capitalLetters) (hfree : p.name ∉ ps.map (·.name))
    (hvariance : p.variance = .invariant) (hbound : ∀ b ∈ p.bound, b.Plain ∧ b.hasVariables = false) :
    (m.insert v (.param p)).Letters (ps ++ [p]) where
  letters q hq := (List.mem_append.mp hq).elim (h.letters q) fun hq => List.mem_singleton.mp hq ▸ hletter
  invariant q hq := (List.mem_append.mp hq).elim (h.invariant q) fun hq => List.mem_singleton.mp hq ▸ hvariance
  bounds q hq := (List.mem_append.mp hq).elim (h.bounds q) fun hq => List.mem_singleton.mp hq ▸ hbound
  distinct := by
    rw [List.map_append]
    refine h.distinct.append (List.nodup_singleton _) ?_
    simpa using hfree
  view n u hu := by
    rw [Subst.lookup_insert] at hu
    split at hu
    · cases hu
      exact ⟨p, by simp, rfl⟩
    · obtain ⟨q, hq, rfl⟩ := h.view n u hu
      exact ⟨q, List.mem_append_left _ hq, rfl⟩

variable (h : m.Letters ps)
include h

theorem occurs_iff (hp : p ∈ ps) : (Ty.param p).Occurs q ↔ q = p := by
  refine Ty.occurs_param.trans (or_iff_left ?_)
  rintro ⟨b, hb, hq⟩
  exact Ty.hasVariables_eq_false.mp (h.bounds p hp b hb).2 q hq

theorem plain (hp : p ∈ ps) : (Ty.param p).Plain := .param fun b hb => (h.bounds p hp b hb).1

theorem lookup_plain (hu : m.lookup n = some u) : u.Plain := by
  obtain ⟨p, hp, rfl⟩ := h.view n u hu
  exact h.plain hp

theorem classParams : ClassParams ps where
  plain _ := h.plain
  letters := h.letters
  distinct := h.distinct
  steady p hp b hb q hq := absurd hq (Ty.hasVariables_eq_false.mp (h.bounds p hp b hb).2 q)
  telescoped := by
    have hall : ∀ (before : List String) (qs : List TypeParam), (∀ q ∈ qs, q ∈ ps) → Telescoped before qs := by
      intro before qs
      induction qs generalizing before with
      | nil => exact fun _ => trivial
      | cons q qs ih =>
        intro hqs
        obtain ⟨hq, hqs⟩ := List.forall_mem_cons.mp hqs
        refine ⟨fun b hb => (h.bounds q hq b hb).1.namesIn fun r hr => ?_, ih _ hqs⟩
        exact absurd hr (Ty.hasVariables_eq_false.mp (h.bounds q hq b hb).2 r)
    exact hall [] ps fun _ hq => hq

/-- A type whose variables all got letters mentions nothing else. -/
theorem mem_of_occurs_subst (ht : t.Plain) (hall : ∀ q, t.Occurs q → m.lookup q.name ≠ none)
    (hq : (t.subst m).Occurs q) : q ∈ ps := by
  rcases ht.occurs_subst hq with ⟨n, u, hu, hocc⟩ | ⟨r, hr, -, hnone⟩
  · obtain ⟨p, hp, rfl⟩ := h.view n u hu
    exact (h.occurs_iff hp).mp hocc ▸ hp
  · exact absurd hnone (hall r hr)

end Subst.Letters

/-- The letters are enough for the variables, or they are all in use. -/
def Subst.Suffices (m : Subst) (vars ps : List TypeParam) : Prop :=
  (∀ v ∈ vars, m.lookup v.name ≠ none) ∨ ∀ letter ∈ capitalLetters, ∃ p ∈ ps, p.name = letter

namespace Gen

/-- **The variables of a type are given letters.** -/
theorem abstractVariables_ensures (hvars : ∀ v ∈ vars, (Ty.param v).Plain) (hm : m.Letters ps) :
    (abstractVariables vars (ps.map (·.name)) m ps).Ensures OnlyDraws s fun r _ => r.1.Letters r.2 ∧
      r.1.Suffices vars r.2 ∧ (∀ n, m.lookup n ≠ none → r.1.lookup n ≠ none) ∧
      r.2.length ≤ ps.length + vars.length := by
  -- Each variable takes a letter of its own, until the letters run out.
  induction vars generalizing s m ps with
  | nil => exact .pure (refl_of OnlyDraws s) ⟨hm, .inl fun _ h => absurd h List.not_mem_nil, fun _ h => h, le_rfl⟩
  | cons v vs ih =>
    obtain ⟨hv, hvs⟩ := List.forall_mem_cons.mp hvars
    rw [abstractVariables]
    refine (Ensures.draw (r := freshLetter (ps.map (·.name)))).bind fun o s₁ h₁ hdrawn => ?_
    obtain ⟨hfresh, hfull⟩ := canGive_freshLetter hdrawn
    split
    · refine .pure (refl_of OnlyDraws s₁) ⟨hm, .inr fun letter hletter => ?_, fun _ h => h, Nat.le_add_right _ _⟩
      exact List.mem_map.mp (hfull rfl letter hletter)
    · rename_i letter
      obtain ⟨hletter, hfree⟩ := hfresh letter rfl
      extract_lets bound p
      have hbound : ∀ b ∈ p.bound, b.Plain ∧ b.hasVariables = false := fun b hb => by
        obtain ⟨hb, hclosed⟩ := Option.filter_eq_some_iff.mp hb
        exact ⟨Ty.Plain.closed.effectiveBound hv hb, by simpa using hclosed⟩
      have hinsert : (m.insert v (.param p)).Letters (ps ++ [p]) := hm.insert hletter hfree rfl hbound
      have hih := ih (s := s₁) hvs hinsert
      rw [List.map_append] at hih
      refine hih.mono fun r _ _ hr => ⟨hr.1, hr.2.1.imp_left fun hall => ?_, fun n hn => hr.2.2.1 n ?_, ?_⟩
      · refine List.forall_mem_cons.mpr ⟨hr.2.2.1 _ ?_, hall⟩
        rw [Subst.lookup_insert, if_pos rfl]
        exact Option.some_ne_none _
      · rw [Subst.lookup_insert]
        split
        · exact Option.some_ne_none _
        · exact hn
      · have hlength := hr.2.2.2
        rw [List.length_append, List.length_singleton] at hlength
        rw [List.length_cons]
        omega

end Gen

/-! ## A member for a type -/

namespace Subst.Letters

variable (hm : m.Letters ps) (ht : t.Plain) (hsuffices : m.Suffices t.typeVars ps)
include hm ht hsuffices

/-- No parameter of the class varies in a type that has letters for its variables. -/
theorem within : (t.subst m).Within ps IsInvariant := fun q hq hletter => by
  rcases hsuffices with hall | hall
  · have hmem := hm.mem_of_occurs_subst ht (fun r hr => hall r (Ty.mem_typeVars.mpr hr)) hq
    exact ⟨q, hmem, rfl, hm.invariant q hmem⟩
  · obtain ⟨p, hp, hname⟩ := hall q.name hletter
    exact ⟨p, hp, hname, hm.invariant p hp⟩

/-- Such a type may be the result of a method. -/
theorem resultFits (hc : c.typeParams = ps) : ResultFits c (t.subst m) := by
  refine ⟨hc ▸ hm.within ht hsuffices, hsuffices.imp (fun hall q hq _ p hp => ?_)
    fun hall letter hletter => hc ▸ hall letter hletter⟩
  have hmem := hm.mem_of_occurs_subst ht (fun r hr => hall r (Ty.mem_typeVars.mpr hr)) hq
  rw [(hm.occurs_iff hmem).mp hp]
  exact not_isMarked_of_mem_capitalLetters (hm.letters q hmem)

end Subst.Letters

namespace Gen

/-- What is known of a class with a member for the type `t`. -/
structure Matching (s : Session) (t : Ty) (asField : Bool) (receiver member : Ty) : Prop where
  plain : receiver.Plain
  requested : member.Requested
  isVoid : member.isVoid = t.isVoid
  field : asField → ∃ c f, s.class? receiver.name = some c ∧ c.fields.find? (·.ty == member) = some f

/-- **A class with a member for a type is declared**, if the types unify in the end. -/
theorem genMatchingClass_ensures {asField : Bool} (hs : s.Sound) (he : s.Served e 1) (ht : t.Requested)
    (hfield : asField → t.Plain) :
    (genMatchingClass e t asField).Ensures (Step P) s fun r s' => Matching s' t asField r.1 r.2 := by
  unfold genMatchingClass
  extract_lets vars
  have hvars : ∀ v ∈ vars, (Ty.param v).Plain := fun v hv => by
    rcases ht with ht | ⟨l, rfl⟩
    · exact (Ty.mem_typeVars.mp hv).closed Ty.Plain.closed ht
    · exact absurd (Ty.mem_typeVars.mp hv) (Ty.not_occurs_of_isGround l.isGround_voidType)
  refine ((abstractVariables_ensures hvars .empty).drawStep hs).bind fun r s₁ h₁ hpost => ?_
  obtain ⟨⟨stream, rfl⟩, hm, hsuffices, -, hlength⟩ := hpost
  obtain ⟨m, params⟩ := r
  dsimp -zeta only at hm hsuffices hlength ⊢
  extract_lets memberType spec
  obtain ⟨hmember, hvoid⟩ := ht.subst_plain fun n u hu => hm.lookup_plain hu
  -- The class is asked for a field of the type or for a method that returns it.
  have hsuits : spec.Suits params := by
    cases asField with
    | true =>
      refine ⟨rfl, fun u hu => ?_, nofun⟩
      cases hu
      have ht := hfield rfl
      exact ⟨ht.subst fun n u hu => hm.lookup_plain hu, hm.within ht hsuffices⟩
    | false =>
      refine ⟨rfl, nofun, fun u hu => ?_⟩
      cases hu
      exact ⟨hmember, ht.isVoid_or_plain.imp hvoid.trans fun ht c hc => hm.resultFits ht hsuffices hc⟩
  have hgiven : spec.typeParams = some params := by cases asField <;> rfl
  have hname : spec.name = none := by cases asField <;> rfl
  refine (genClassDecl_ensures h₁.sound (he.step h₁) (fun ps hps => ?_) (fun ps hps => ?_) hname).bind
    fun c s₂ h₂ hc => ?_
  · rw [hgiven] at hps
    cases hps
    exact hm.classParams
  · rw [hps params hgiven]
    exact hsuits
  · have hs₂ := h₂.sound
    extract_lets receiver seen
    -- A generic class is applied to the variables its letters stand for, any other is its own type.
    have hreceiver : receiver.Plain ∧ receiver.name = c.name := by
      by_cases hgeneric : c.isGeneric
      · have hplain := (hs₂.classes c hc.mem).plain
        rw [show receiver = .applied c.ctor ((vars.take params.length).map .param) from if_pos hgeneric]
        refine ⟨hplain.applied (fun a ha => ?_) ?_ nofun, rfl⟩
        · obtain ⟨v, hv, rfl⟩ := List.mem_map.mp ha
          exact hvars v (List.mem_of_mem_take hv)
        · rw [List.length_map, List.length_take, show c.ctor.params = params from hc.typeParams params hgiven]
          exact Nat.min_eq_left (by simpa using hlength)
      · have hnone : c.typeParams = [] := by simpa [ClassDecl.isGeneric] using hgeneric
        have htype : receiver = .simple c.name c.supertypes := by
          rw [show receiver = c.type from if_neg hgeneric, ClassDecl.type, hnone]
          rfl
        rw [htype]
        exact ⟨hs₂.plain_simple hc.mem, rfl⟩
    split
    · refine .pure (.refl hs₂) ⟨hreceiver.1, hmember, hvoid, fun hasField => ?_⟩
      -- The class was asked for a field of this type, so the look-up for one finds it.
      have hrequired : memberType ∈ spec.fieldType := by rw [show spec = _ from if_pos hasField]; rfl
      obtain ⟨f, hf, hty⟩ := hc.fields memberType hrequired
      have hfind : (c.fields.find? (·.ty == memberType)).isSome :=
        List.find?_isSome.mpr ⟨f, hf, by simp [hty]⟩
      obtain ⟨f', hf'⟩ := Option.isSome_iff_exists.mp hfind
      exact ⟨c, f', hreceiver.2 ▸ hs₂.class?_eq hc.mem, hf'⟩
    · exact .throw rfl

end Gen

/-! ## Implementations -/

namespace Session

/-- A type that a new class can implement: no regular class, and finished. -/
structure Implementable (s : Session) (t : Ty) : Prop where
  plain : t.Plain
  abstract : ∀ c m, s.receiver? t = some (c, m) → c.kind ≠ .regular ∧ s.isUnfinished c.name = false

/-- A class without parameters and fields that can be instantiated. -/
def HasInstance (s : Session) (n : String) : Prop :=
  ∃ c ∈ s.classes, c.name = n ∧ c.typeParams = [] ∧ c.kind = .regular ∧ c.fields = [] ∧ s.isUnfinished n = false

theorem stands_newInstance {T : Demand} {k : Nat} (hk : 1 ≤ k) (hplain : t.Plain) (hc : c ∈ s.classes)
    (hfinished : s.isUnfinished c.name = false) (hname : c.name = t.name) (ht : t.isObject) (hkind : c.kind = .regular)
    (hfields : c.fields = []) : s.Stands T k (.new t []) :=
  (Stands.of_children (k := 0) (a := .new t []) rfl (List.forall_mem_singleton.mpr (.inl hplain))
    (fun _ _ _ _ => trivial) (fun s' hl => .inr ⟨c, (hl.finished c hc hfinished).1, hname,
      Ty.isBuiltin_of_isObject ht, hkind, by rw [hfields]; rfl⟩) nofun).deeper hk

end Session

namespace Gen

/-- The superclass of an implementation suits it. -/
theorem superFound_implementation {args : Option (List Expr)} (ht : t.Plain) (hobject : t.isObject)
    (hopen : s.IsOpen d) (hname : d.name = t.name)
    (hlength : args.map List.length = if d.isInterface then none else some d.fields.length)
    (hargs : ∀ a ∈ args.getD [], s'.FitsHere noTargets a ∧ s'.ShapesRoot a) :
    SuperFound s s' (ClassKind.regular == .interface) ⟨t, args⟩ :=
  ⟨⟨d, hopen, hname, nofun, hlength⟩, ht, hobject, hargs⟩

/-- **A final class is registered and implements a type.** -/
theorem implement_ensures {args : Option (List Expr)} (hs : s.Sound) (he : s.Served e 1) (hready : s.ClassReady n)
    (hstep : s.Step (.within (Namespace.global.child n)) s₁)
    (hsup : SuperFound s s₁ (ClassKind.regular == .interface) ⟨t, args⟩) :
    (do addDecl .global (.cls { ClassDecl.plain n .regular with supers := [⟨t, args⟩], isFinal := true })
        whileUnfinished n do
          (abstractMembers (← get).context t).forM fun (f, view) => do
            let _ ← overrideFunc e (Namespace.global.child n) view true f : Gen Unit).Ensures
      (fun _ s' => s.Step (.ofClass n) s') s₁ fun _ s' => s'.HasInstance n := by
  have hfree : ∀ c ∈ s.classes, c.name ≠ n := hready.free_class
  have hfree₁ : ∀ c ∈ s₁.classes, c.name ≠ n := fun c hc hname =>
    (hstep.taken n hready.spent ⟨_, _, Context.mem_classes_global.mp hc, List.mem_singleton.mpr hname.symm⟩).elim
      hready.free id
  -- The class counts as unfinished from before its registration on, which makes no difference to that.
  have hs₀ := hs.beginClass hready.spent hfree
  have hstep₀ := hstep.beginClass hready.spent hfree hfree₁
  have hnew : NewClass { s with unfinished := n :: s.unfinished } n [] :=
    hready.newClass ⟨nofun, nofun, .nil, nofun, trivial⟩ (.refl s) rfl (.nil rfl)
  obtain ⟨d, hopen, hname, -, hlength⟩ := hsup.cls
  have hsup₀ : SuperFound { s with unfinished := n :: s.unfinished } { s₁ with unfinished := n :: s₁.unfinished }
      (ClassKind.regular == .interface) ⟨t, args⟩ :=
    superFound_implementation hsup.plain hsup.object (hopen.mono (leads_beginClass hfree)) hname hlength fun a ha =>
      have h := hsup.args a ha
      ⟨h.1.mono (leads_beginClass hfree₁) rfl (.refl _), (leads_beginClass hfree₁).shapesRoot h.2⟩
  have hfound : ∀ sup ∈ some (SuperDecl.mk t args), SuperFound _ _ (ClassKind.regular == .interface) sup :=
    fun sup hmem => by cases hmem; exact hsup₀
  have hdeclares := declares_header hs₀ hnew hstep₀ (fun _ : true = true => rfl) hfound
    fun h => h.elim (absurd rfl) nofun
  generalize hh : classHeader n .regular [] true (some ⟨t, args⟩) = h at hdeclares
  have hheader : { ClassDecl.plain n .regular with supers := [⟨t, args⟩], isFinal := true } = h := hh
  rw [hheader]
  have hregister := hdeclares.step (P := .header n) hstep₀.sound (.withContext hstep₀.sound _)
    fun _ => by rw [← hh]; rfl
  have hadd : (addDecl .global (.cls h)).Ensures (fun _ s' => s' = s₁.withContext (s₁.context.push .global (.cls h))) s₁
      fun _ _ => True := by
    refine .updateContext (Context.add_eq_push fun d' hd' _ hname => ?_)
      (.pushClass rfl hregister.sound.kept) rfl trivial
    have hmem : d'.name ∈ d'.names := Sound.name_mem_names d'
    rw [hname] at hmem
    exact hdeclares.free ⟨.global, d', hd', hmem⟩
  refine hadd.seq fun _ s₂ h₂ _ => ?_
  subst h₂
  have hall := (hstep₀.relax allows_header).trans hregister
  obtain ⟨hin, hnofields, hnofuncs⟩ := inClass_of_registered (h := h) hs₀ hnew hall hfound
    (by rw [hh, hdeclares.classes]; exact List.mem_append_right _ List.mem_cons_self) hh.symm
  have hscope : h.scope = Namespace.global.child n := by rw [← hh]; rfl
  have hsupers : h.supers = [⟨t, args⟩] := by rw [← hh]; rfl
  have heₙ := (he.step hstep).withFrame (f := s₁.frame) (j := 1) le_rfl
  rw [← hscope]
  refine .whileUnfinished (.get ((implementAll_ensures hregister.sound heₙ hin hsupers fun g hg =>
    absurd hg (hnofuncs g)).imp fun _ s' h' hpost => ?_))
  obtain ⟨hin', himpl, honly⟩ := hpost
  have hs' := h'.sound
  have hmade := (hall.relax allows_ofClass_header).trans (h'.relax (allows_ofClass_body hscope))
  obtain ⟨c, hc, hcscope, hcname, hckind, hcps, -⟩ := hin'.exists_class
  have hkind : h.kind = .regular := by rw [← hh]; rfl
  have hhname : h.name = n := by rw [← hh]; rfl
  have hcn : c.name = n := hcname.trans hhname
  have hend := hmade.endClass hs hfree fun d hd hdname hregular => by
    obtain rfl := hs'.class_eq hd hc (hdname.trans hcn.symm)
    exact hin'.complete hs' himpl hd hcname hregular
  refine ⟨?_, c, hc, hcn, hcps.trans (by rw [← hh]; rfl), hckind.trans hkind, ?_, ?_⟩
  · show Step (.ofClass n) s { s' with unfinished := s₁.unfinished }
    rw [hstep.unfinished]
    exact hend
  · refine List.eq_nil_iff_forall_not_mem.mpr fun f hf => hnofields f (honly f ?_)
    exact hcscope ▸ hs'.field_mem hc hf
  · show s₁.unfinished.contains n = false
    rw [hstep.unfinished]
    exact hready.finished

/-- **An abstract type is implemented** by a class that is made for it. -/
theorem genImplementation_ensures (hs : s.Sound) (he : s.Served e 1) (ht : s.Implementable t) :
    (genImplementation e t).Ensures (Step P) s fun a s' => s'.Answers s.frame.depth t a := by
  unfold genImplementation
  split
  · exact .pure (.refl hs) (.unresolved (.inl ht.plain))
  refine .get ?_
  split
  · exact .pure (.refl hs) (.unresolved (.inl ht.plain))
  rename_i sup m hreceiver
  obtain ⟨hsup, hname, hm, hobject⟩ := of_receiver? hreceiver
  obtain ⟨habstract, hfinished⟩ := ht.abstract _ _ hreceiver
  have hopen : s.IsOpen sup := ⟨hsup, hfinished, Bool.eq_false_iff.mpr fun hfinal =>
    habstract ((hs.classes sup hsup).finalKind hfinal)⟩
  -- All that is read of the new class afterwards is that it has instances.
  refine newClass_ensures hs (Q := fun n _ s' => s'.HasInstance n) (fun _ _ _ _ h => h) (fun n _ s' hs' hmade => ?_)
    fun n s₀ hs₀ hready hl hcontext hunfinished he₀ => ?_
  · obtain ⟨c, hc, hname, hparams, hkind, hfields, hfinished⟩ := hmade
    have htype : c.type = .simple c.name c.supertypes := by rw [ClassDecl.type, hparams]; rfl
    refine .get (.pure rfl ?_)
    rw [← hname, hs'.class?_eq hc, Option.map_some, Option.getD_some, htype]
    have hplain := hs'.plain_simple hc
    exact .of_value (stands_newInstance exprDepth_pos hplain hc (hname ▸ hfinished) rfl rfl hkind hfields) rfl
      hplain ht.plain.isVoid
  · have hopen₀ := hopen.mono hl
    have hplain : ∀ f ∈ sup.fields, (f.ty.subst m).Plain := fun f hf =>
      (hs.types _ _ (hs.field_mem hsup hf)).subst_all (hm ▸ .argMap Ty.Plain.closed ht.plain)
    have hP : (Permit.within (Namespace.global.child n)).Covers s₀.frame.ns := .inr hready.ns
    extract_lets plain rest
    -- With or without arguments for the constructor above, the class is implemented in the same
    -- way.
    have hrest : ∀ (args : Option (List Expr)) (s₁ : Session), s₀.Step (.within (Namespace.global.child n)) s₁ →
        (args.map List.length = if sup.isInterface then none else some sup.fields.length) →
        (∀ a ∈ args.getD [], s₁.FitsHere noTargets a ∧ s₁.ShapesRoot a) →
        (rest args).Ensures (fun _ s' => s₀.Step (.ofClass n) s') s₁ fun _ s' => s'.HasInstance n :=
      fun args s₁ h₁ hlength hargs => implement_ensures hs₀ ((he₀ e 0 he).withFrame (Nat.le_succ _)) hready h₁
        (superFound_implementation ht.plain hobject hopen₀ hname hlength hargs)
    split
    · exact .pass ((hrest none s₀ (.refl hs₀) (by simp [*]) fun _ h => absurd h List.not_mem_nil).weaken fun _ h => h)
    · refine Ensures.seq (Q := fun r s' => ∃ args : List Expr, r = some args ∧ args.length = sup.fields.length ∧
        ∀ a ∈ args, s'.FitsHere noTargets a ∧ s'.ShapesRoot a) (Ensures.map ((genSuperArgs_ensures hs₀ (he₀ e 0 he)
          hplain hP).mono fun args _ _ hargs => ⟨args, rfl, hargs⟩)) fun r s₁ h₁ hargs => ?_
      obtain ⟨args, rfl, hlength, hargs⟩ := hargs
      exact hrest (some args) s₁ h₁ (by simp [*]) hargs

end Gen

end ProgramGen

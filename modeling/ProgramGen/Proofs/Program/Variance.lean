import ProgramGen.Proofs.Program.Members
import ProgramGen.Proofs.Typing.Binding
import ProgramGen.Names.Pool

/-!
# Variance at the site of declaration

Where the type parameters of a class stand in it. Type parameters of classes are named by letters,
and those of functions are not, so that it is enough to say of which variance the letters are that
occur in a signature. Seen through a superclass whose arguments do not vary, no signature does.
-/

namespace ProgramGen

variable {ps ps' : List TypeParam} {ok ok' : Variance → Prop} {t u : Ty} {m : Subst} {p q : TypeParam}

/-- All letters that occur in the type are type parameters of a class, of a variance that `ok` holds
of. -/
def Ty.Within (ps : List TypeParam) (ok : Variance → Prop) (t : Ty) : Prop :=
  ∀ q, t.Occurs q → q.name ∈ capitalLetters → ∃ p ∈ ps, p.name = q.name ∧ ok p.variance

/-- It does not vary. -/
def IsInvariant (v : Variance) : Prop := v = .invariant

/-- It may go into an object. -/
def IsInput (v : Variance) : Prop := v ≠ .covariant

/-- It may come out of an object. -/
def IsOutput (v : Variance) : Prop := v ≠ .contravariant

/-- The bound mentions only type parameters that do not vary. -/
def TypeParam.BoundWithin (ps : List TypeParam) (p : TypeParam) : Prop :=
  ∀ b ∈ p.bound, b.Within ps IsInvariant

/-- Parameters go into the object, and the result comes out. -/
structure FuncDecl.Respects (ps : List TypeParam) (f : FuncDecl) : Prop where
  params : ∀ p ∈ f.params, p.ty.Within ps IsInput
  ret : f.ret.Within ps IsOutput
  bounds : ∀ p ∈ f.typeParams, p.BoundWithin ps

/-- A field comes out of the object, and goes in if it is not final. -/
def FieldDecl.Respects (ps : List TypeParam) (f : FieldDecl) : Prop :=
  f.ty.Within ps fun v => IsOutput v ∧ (f.isFinal = false → IsInput v)

/-- The type parameters of a class stand where their variance allows it. -/
structure ClassDecl.Respects (c : ClassDecl) : Prop where
  header : ∀ sup ∈ c.supers, sup.ty.Within c.typeParams IsInvariant
  fields : ∀ f ∈ c.fields, f.Respects c.typeParams
  funcs : ∀ f ∈ c.funcs, f.Respects c.typeParams

namespace Ty

theorem Within.mono (h : t.Within ps ok) (hok : ∀ v, ok v → ok' v) : t.Within ps ok' := fun q hq hletter => by
  obtain ⟨p, hp, hname, hv⟩ := h q hq hletter
  exact ⟨p, hp, hname, hok _ hv⟩

/-- A type parameter of another variance is not mentioned. -/
theorem Within.mentions (h : t.Within ps ok) (hdistinct : (ps.map (·.name)).Nodup) (hp : p ∈ ps)
    (hletter : p.name ∈ capitalLetters) (hvaries : ¬ok p.variance) : t.mentions p.name = false := by
  rw [Ty.mentions, List.any_eq_false]
  intro q hq hname
  have hname : q.name = p.name := by simpa using hname
  obtain ⟨p', hp', hp'name, hv⟩ := h q (mem_typeVars.mp hq) (hname ▸ hletter)
  rw [List.inj_on_of_nodup_map hdistinct hp' hp (hp'name.trans hname)] at hv
  exact hvaries hv

theorem Within.of_not_occurs (h : ∀ q, ¬t.Occurs q) : t.Within ps ok := fun q hq => absurd hq (h q)

end Ty

/-! ## Views -/

/-- The substitution views the members of a class with the parameters `ps` in one with the parameters
`ps'`, where nothing that it brings varies. -/
structure Subst.Views (m : Subst) (ps ps' : List TypeParam) : Prop where
  bound : ∀ p ∈ ps, m.lookup p.name ≠ none
  within : ∀ n u, m.lookup n = some u → u.Within ps' IsInvariant

/-- What occurs in a substituted type comes from what is put in, or is a variable that stays. -/
theorem Ty.Plain.occurs_subst (ht : t.Plain) (hq : (t.subst m).Occurs q) :
    (∃ n u, m.lookup n = some u ∧ u.Occurs q) ∨
      ∃ q', t.Occurs q' ∧ q'.name = q.name ∧ m.lookup q'.name = none := by
  induction ht with
  | builtin | simple => rw [Ty.subst] at hq; cases hq
  | @param p _ ih =>
    obtain ⟨n, v, b⟩ := p
    rw [Ty.subst] at hq
    split at hq
    · exact .inl ⟨n, _, ‹_›, hq⟩
    · rcases Ty.occurs_param.mp hq with rfl | ⟨b', hb', hocc⟩
      · exact .inr ⟨_, .here, rfl, ‹_›⟩
      · rw [Ty.substBound_eq] at hb'
        obtain ⟨b, rfl, rfl⟩ := Option.map_eq_some_iff.mp hb'
        exact (ih b rfl hocc).imp_right (Exists.imp fun _ => And.imp_left (.bound rfl))
  | @applied c args _ _ _ _ _ _ _ _ _ ih =>
    rw [Ty.subst, Ty.substList_eq] at hq
    cases hq with
    | arg ha hocc =>
      obtain ⟨a, ha', rfl⟩ := List.mem_map.mp ha
      exact (ih a ha' hocc).imp_right (Exists.imp fun _ => And.imp_left (.arg ha'))

/-- **Seen through a view nothing varies.** -/
theorem Ty.Within.subst (h : t.Within ps ok) (ht : t.Plain) (hm : m.Views ps ps') :
    (t.subst m).Within ps' IsInvariant := fun q hq hletter => by
  rcases ht.occurs_subst hq with ⟨n, u, hu, hocc⟩ | ⟨q', hocc, hname, hnone⟩
  · exact hm.within n u hu q hocc hletter
  · obtain ⟨p, hp, hpname, -⟩ := h q' hocc (hname ▸ hletter)
    exact absurd (hpname ▸ hnone) (hm.bound p hp)

/-- The type is that of an object of the class. -/
def Ty.IsOf (t : Ty) (d : ClassDecl) : Prop :=
  (d.typeParams = [] ∧ t = d.type) ∨
    ∃ args, t = .applied d.ctor args ∧ args.length = d.typeParams.length

namespace Ty.IsOf

variable {d : ClassDecl}

theorem name_eq (h : t.IsOf d) : d.name = t.name := by
  rcases h with ⟨hnone, rfl⟩ | ⟨args, rfl, -⟩
  · rw [ClassDecl.type, hnone]
    rfl
  · rfl

theorem subst (h : t.IsOf d) : (t.subst m).IsOf d := by
  rcases h with ⟨hnone, rfl⟩ | ⟨args, rfl, hlength⟩
  · refine .inl ⟨hnone, ?_⟩
    rw [ClassDecl.type, hnone]
    exact Ty.subst.eq_2 ..
  · refine .inr ⟨args.map (Ty.subst m), ?_, by rwa [List.length_map]⟩
    rw [Ty.subst, Ty.substList_eq]

/-- The arguments of an object's type view the members of its class. -/
theorem views (h : t.IsOf d) (hdistinct : (d.typeParams.map (·.name)).Nodup)
    (ht : t.Within ps IsInvariant) : t.argMap.Views d.typeParams ps := by
  rcases h with ⟨hnone, rfl⟩ | ⟨args, rfl, hlength⟩
  · rw [ClassDecl.type, hnone]
    exact ⟨nofun, nofun⟩
  · have hzip : ((d.typeParams.zip args).map (·.1.name)).Nodup := by
      have : (d.typeParams.zip args).map (·.1.name) = d.typeParams.map (·.name) := by
        rw [show (fun x : TypeParam × Ty => x.1.name) = (·.name) ∘ Prod.fst from rfl, ← List.map_map,
          List.map_fst_zip (by omega)]
      rwa [this]
    refine ⟨fun p hp => ?_, fun n u hu => ?_⟩
    · obtain ⟨i, hi, rfl⟩ := List.mem_iff_getElem.mp hp
      have hmem : (d.typeParams[i], args[i]) ∈ d.typeParams.zip args :=
        List.mem_iff_getElem.mpr ⟨i, by simp; omega, by simp⟩
      have hlookup := Subst.lookup_ofList_of_mem hzip hmem
      show (Subst.ofList (d.typeParams.zip args)).lookup _ ≠ none
      rw [hlookup]
      simp
    · obtain ⟨x, hx, -, rfl⟩ := Subst.mem_of_lookup_ofList hu
      exact fun q hq => ht q (.arg (List.of_mem_zip hx).2 hq)

end Ty.IsOf

/-- Each class that can be extended respects its type parameters, and so do those above it. -/
structure Context.Varies (c : Context) (F : ClassDecl → Prop) : Prop where
  distinct : ∀ d, F d → (d.typeParams.map (·.name)).Nodup
  respects : ∀ d, F d → d.Respects
  supers : ∀ d, F d → ∀ sup ∈ d.supers, sup.ty.Plain ∧ ∃ d', F d' ∧ sup.ty.IsOf d'
  mem : ∀ d, F d → d ∈ c.programClasses

/-- **A member is inherited from a class through a view.** -/
theorem Context.Inherits.views {α : Type} {c : Context} {F : ClassDecl → Prop} {members : ClassDecl → List α}
    {name : α → String} {n : String} {a : α} (h : c.Inherits members name n t a m) (hF : c.Varies F)
    (hc : c.DistinctClasses) {d : ClassDecl} (hd : F d) (ht : t.IsOf d) (hwithin : t.Within ps IsInvariant) :
    ∃ d', F d' ∧ a ∈ members d' ∧ m.Views d'.typeParams ps := by
  induction h generalizing d with
  | @here t d' a hd' hname ha _ =>
    obtain rfl := hc.eq_of_name hd' (hF.mem d hd) (hname.trans ht.name_eq.symm)
    exact ⟨d', hd, ha, ht.views (hF.distinct d' hd) hwithin⟩
  | @above t d' sup a m hd' hname _ hsup _ ih =>
    obtain rfl := hc.eq_of_name hd' (hF.mem d hd) (hname.trans ht.name_eq.symm)
    obtain ⟨hplain, e, he, hof⟩ := hF.supers d' hd sup hsup
    exact ih he hof.subst
      (((hF.respects d' hd).header sup hsup).subst hplain (ht.views (hF.distinct d' hd) hwithin))

end ProgramGen

import ProgramGen.Proofs.Generation.Scopes

/-!
# What is registered

A declaration enters a scope that has none of its kind and name, under names that nothing else has,
or that are those of what it overrides. What stays of a declaration as it is registered is its
outline, and that names are told apart can be seen at the outlines alone.
-/

namespace ProgramGen

variable {d d' : Decl}

/-! ## Outlines -/

namespace Decl

theorem name_outline (d : Decl) : d.outline.name = d.name := by cases d <;> rfl

theorem kind_outline (d : Decl) : d.outline.kind = d.kind := by cases d <;> rfl

theorem names_outline (d : Decl) : d.outline.names = d.names := by cases d <;> rfl

theorem agrees_outline : d.outline.Agrees d'.outline ↔ d.Agrees d' := by cases d <;> cases d' <;> rfl

theorem typesPlain_outline : d.outline.TypesPlain ↔ d.TypesPlain := by cases d <;> rfl

theorem agrees_symm (h : d.Agrees d') : d'.Agrees d := by
  cases d <;> cases d' <;> first | exact h | exact Eq.symm h | exact And.symm h

section SameOutline

variable (h : d.outline = d'.outline)
include h

theorem name_eq_of_outline : d.name = d'.name := by rw [← d.name_outline, h, d'.name_outline]

theorem kind_eq_of_outline : d.kind = d'.kind := by rw [← d.kind_outline, h, d'.kind_outline]

theorem names_eq_of_outline : d.names = d'.names := by rw [← d.names_outline, h, d'.names_outline]

theorem typesPlain_of_outline (hp : d.TypesPlain) : d'.TypesPlain :=
  typesPlain_outline.mp (h ▸ typesPlain_outline.mpr hp)

theorem eq_of_outline_var {v : VarDecl} (hd : d = .var v) : d' = .var v := by
  subst hd
  cases d' <;> cases h
  rfl

theorem eq_of_outline_param {p : ParamDecl} (hd : d = .param p) : d' = .param p := by
  subst hd
  cases d' <;> cases h
  rfl

theorem eq_of_outline_field {f : FieldDecl} (hd : d = .field f) : d' = .field f := by
  subst hd
  cases d' <;> cases h
  rfl

theorem exists_of_outline_func {f : FuncDecl} (hd : d = .func f) : ∃ g : FuncDecl, d' = .func g ∧
    g.name = f.name ∧ g.params = f.params ∧ g.ret = f.ret ∧ g.kind = f.kind ∧
    g.typeParams = f.typeParams ∧ g.isFinal = f.isFinal ∧ g.isOverride = f.isOverride ∧
    g.isAbstract = f.isAbstract := by
  subst hd
  cases d' with
  | func g =>
    obtain ⟨n, ps, r, b, k, ts, i, o⟩ := f
    obtain ⟨n', ps', r', b', k', ts', i', o'⟩ := g
    simp only [outline, func.injEq, FuncDecl.mk.injEq] at h
    obtain ⟨rfl, rfl, rfl, hb, rfl, rfl, rfl, rfl⟩ := h
    refine ⟨_, rfl, rfl, rfl, rfl, rfl, rfl, rfl, rfl, ?_⟩
    unfold FuncDecl.isAbstract
    cases b <;> cases b' <;> first | rfl | cases hb
  | _ => cases h

end SameOutline

end Decl

namespace Session

variable {s s' : Session} {P : Permit} {ns m : Namespace} {ds : List Decl} {n : String}

/-! ## Growing scopes -/

/-- The outlines of all scopes are what they were, with those of `ds` at the end of one scope. -/
def Grown (s s' : Session) (ns : Namespace) (ds : List Decl) : Prop :=
  ∀ m, (s'.decls m).map Decl.outline =
    (s.decls m).map Decl.outline ++ if m = ns then ds.map Decl.outline else []

namespace Grown

theorem mem (h : s.Grown s' ns ds) (hd : d ∈ s'.decls m) :
    (∃ d₀ ∈ s.decls m, d₀.outline = d.outline) ∨ (m = ns ∧ ∃ d₀ ∈ ds, d₀.outline = d.outline) := by
  have hmem := List.mem_map_of_mem (f := Decl.outline) hd
  rw [h m, List.mem_append] at hmem
  rcases hmem with hmem | hmem
  · exact .inl (List.mem_map.mp hmem)
  · split at hmem
    · exact .inr ⟨‹_›, List.mem_map.mp hmem⟩
    · cases hmem

theorem mem_of_mem (h : s.Grown s' ns ds) (hd : d ∈ s.decls m) :
    ∃ d' ∈ s'.decls m, d'.outline = d.outline := by
  refine List.mem_map.mp ?_
  rw [h m]
  exact List.mem_append_left _ (List.mem_map_of_mem hd)

theorem decls_prefix (h : s.Grown s' ns ds) (m : Namespace) :
    (s.decls m).map Decl.outline <+: (s'.decls m).map Decl.outline := by
  rw [h m]
  exact List.prefix_append _ _

/-- A taken name was taken, or is one of what was added. -/
theorem taken (h : s.Grown s' ns ds) (hn : s'.Taken n) : s.Taken n ∨ ∃ d ∈ ds, n ∈ d.names := by
  obtain ⟨m, d, hd, hn⟩ := hn
  rcases h.mem hd with ⟨d₀, hd₀, heq⟩ | ⟨-, d₀, hd₀, heq⟩
  · exact .inl ⟨m, d₀, hd₀, by rwa [Decl.names_eq_of_outline heq]⟩
  · exact .inr ⟨d₀, hd₀, by rwa [Decl.names_eq_of_outline heq]⟩

/-- Changing variables were there, or are added. -/
theorem hasMutable (h : s.Grown s' ns ds) (hm : s'.HasMutable m n) :
    s.HasMutable m n ∨ ∃ x : VarDecl, .var x ∈ ds ∧ x.name = n ∧ x.isFinal = false := by
  obtain ⟨x, hx, hname, hfinal⟩ := hm
  rcases h.mem hx with ⟨d₀, hd₀, heq⟩ | ⟨-, d₀, hd₀, heq⟩
  · exact .inl ⟨x, Decl.eq_of_outline_var heq.symm rfl ▸ hd₀, hname, hfinal⟩
  · exact .inr ⟨x, Decl.eq_of_outline_var heq.symm rfl ▸ hd₀, hname, hfinal⟩

theorem hasMutable_of (h : s.Grown s' ns ds) (hm : s.HasMutable m n) : s'.HasMutable m n := by
  obtain ⟨x, hx, hrest⟩ := hm
  obtain ⟨d', hd', heq⟩ := h.mem_of_mem hx
  exact ⟨x, Decl.eq_of_outline_var heq.symm rfl ▸ hd', hrest⟩

/-- What is in sight stays so. -/
theorem inSight {locals : Prop} (h : s.Grown s' ns ds) (hn : s.InSight m locals n) : s'.InSight m locals n := by
  obtain ⟨m', hm, d, hd, hkind, rfl, hown⟩ := hn
  obtain ⟨d', hd', heq⟩ := h.mem_of_mem hd
  exact ⟨m', hm, d', hd', (Decl.kind_eq_of_outline heq).trans hkind, Decl.name_eq_of_outline heq, fun hm =>
    (hown hm).imp_right fun ⟨p, hp⟩ => ⟨p, Decl.eq_of_outline_param heq.symm hp⟩⟩

theorem loopLocal (h : s.Grown s' ns ds) (hn : s.context.LoopLocal n) : s'.context.LoopLocal n := by
  obtain ⟨m, hm, x, hx, hname⟩ := hn
  obtain ⟨d', hd', heq⟩ := h.mem_of_mem hx
  exact ⟨m, hm, x, Decl.eq_of_outline_var heq.symm rfl ▸ hd', hname⟩

theorem func {f : FuncDecl} (h : s.Grown s' ns ds) (hf : .func f ∈ s.decls m) :
    ∃ g, .func g ∈ s'.decls m ∧ f.SameHead g := by
  obtain ⟨d', hd', heq⟩ := h.mem_of_mem hf
  obtain ⟨g, rfl, hname, hparams, -, hkind, htypeParams, -⟩ := Decl.exists_of_outline_func heq.symm rfl
  exact ⟨g, hd', hname, hparams, htypeParams, hkind⟩

/-- A parameter was there, or is added. -/
theorem param {p : ParamDecl} (h : s.Grown s' ns ds) (hp : .param p ∈ s'.decls m) :
    .param p ∈ s.decls m ∨ m = ns ∧ .param p ∈ ds := by
  rcases h.mem hp with ⟨d₀, hd₀, heq⟩ | ⟨hm, d₀, hd₀, heq⟩
  · exact .inl (Decl.eq_of_outline_param heq.symm rfl ▸ hd₀)
  · exact .inr ⟨hm, Decl.eq_of_outline_param heq.symm rfl ▸ hd₀⟩

end Grown

/-- The declaration can be registered in the scope. -/
structure Welcomes (s : Session) (ns : Namespace) (d : Decl) : Prop where
  keys : ∀ d' ∈ s.decls ns, d'.kind = d.kind → d'.name ≠ d.name
  unique : ∀ m, ∀ d' ∈ s.decls m, d'.name = d.name → d'.Agrees d
  params : ∀ m f, .func f ∈ s.decls m → ∀ p ∈ f.params, p.name = d.name → ∃ q, d = .param q
  ownParams : ∀ f, d = .func f → ∀ p ∈ f.params, p.name ≠ f.name ∧
    ∀ m, ∀ d' ∈ s.decls m, d'.name = p.name → ∃ q, d' = .param q
  types : d.TypesPlain

/-- What has names that nothing has can be registered. -/
theorem welcomes_of_fresh (hfresh : ∀ n ∈ d.names, ¬s.Taken n) (htypes : d.TypesPlain)
    (hparams : ∀ f, d = .func f → ∀ p ∈ f.params, p.name ≠ f.name) : s.Welcomes ns d := by
  have hname : ∀ m, ∀ d' ∈ s.decls m, d'.name ≠ d.name := fun m d' hd' heq =>
    hfresh d.name (Sound.name_mem_names d) ⟨m, d', hd', heq ▸ Sound.name_mem_names d'⟩
  refine ⟨fun d' hd' _ => hname ns d' hd', fun m d' hd' heq => absurd heq (hname m d' hd'), ?_, ?_,
    htypes⟩
  · intro m f hf p hp heq
    refine absurd ⟨m, _, hf, ?_⟩ (hfresh d.name (Sound.name_mem_names d))
    exact List.mem_cons_of_mem _ (List.mem_map.mpr ⟨p, hp, heq⟩)
  · rintro f rfl p hp
    refine ⟨hparams f rfl p hp, fun m d' hd' heq => ?_⟩
    have hmem : p.name ∈ (Decl.func f).names := List.mem_cons_of_mem _ (List.mem_map_of_mem hp)
    exact absurd ⟨m, d', hd', heq ▸ Sound.name_mem_names d'⟩ (hfresh _ hmem)

/-- **What is registered stays so**, with at most one more declaration that can be. -/
theorem Registered.grow (hr : s.Registered) (hg : s.Grown s' ns ds) (hspent : ∀ n, s.Spent n → s'.Spent n)
    (hscope : ∀ m, m ≠ ns → s'.context.scope m ≠ .empty → s.context.scope m ≠ .empty)
    (hopen : s'.Opened ns) (hone : ds.length ≤ 1) (hds : ∀ d ∈ ds, s.Welcomes ns d)
    (hnames : ∀ d ∈ ds, ∀ n ∈ d.names, s'.Spent n)
    (hclass : ns.className? ≠ none → ∀ d ∈ ds, d.kind = .var → ∃ f, d = .field f) : s'.Registered := by
  have hsame : ∀ d₁ ∈ ds, ∀ d₂ ∈ ds, d₁ = d₂ := by
    intro d₁ h₁ d₂ h₂
    match ds, hone, h₁, h₂ with
    | [d], _, h₁, h₂ => exact (List.mem_singleton.mp h₁).trans (List.mem_singleton.mp h₂).symm
  refine
    { opened := fun m hm => ?opened
      taken := fun n hn => ?taken
      keys := fun m => ?keys
      unique := fun m d m' d' hd hd' hname => ?unique
      params := fun m f hf p hp m' d hd hname => ?params
      classScopes := fun m hm d hd hkind => ?classScopes
      types := fun m d hd => ?types }
  case opened =>
    by_cases hmn : m = ns
    · exact hmn ▸ hopen
    · exact fun n hn => hspent n (hr.opened m (hscope m hmn hm) n hn)
  case taken =>
    rcases hg.taken hn with h | ⟨d, hd, hn⟩
    · exact hspent n (hr.taken n h)
    · exact hnames d hd n hn
  case keys =>
    have hkey : ∀ xs : List Decl, (xs.map fun d => (d.kind, d.name)) =
        (xs.map Decl.outline).map fun d => (d.kind, d.name) := by
      intro xs
      rw [List.map_map]
      exact List.map_congr_left fun d _ => by simp [Decl.kind_outline, Decl.name_outline]
    rw [hkey, hg m, List.map_append, ← hkey]
    split
    · subst m
      rw [← hkey]
      refine List.Nodup.append (hr.keys ns) ?_ ?_
      · match ds, hone with
        | [], _ => exact List.nodup_nil
        | [d], _ => exact List.nodup_singleton _
      · intro k hk hk'
        obtain ⟨d', hd', rfl⟩ := List.mem_map.mp hk
        obtain ⟨d, hd, heq⟩ := List.mem_map.mp hk'
        obtain ⟨hkind, hname⟩ := Prod.mk.inj heq
        exact (hds d hd).keys d' hd' hkind.symm hname.symm
    · simpa using hr.keys m
  case unique =>
    rcases hg.mem hd with ⟨d₀, hd₀, heq⟩ | ⟨rfl, d₀, hd₀, heq⟩ <;>
      rcases hg.mem hd' with ⟨d₀', hd₀', heq'⟩ | ⟨hm', d₀', hd₀', heq'⟩ <;>
      rw [← Decl.name_eq_of_outline heq, ← Decl.name_eq_of_outline heq'] at hname <;>
      rw [← Decl.agrees_outline, ← heq, ← heq', Decl.agrees_outline, ← Decl.kind_eq_of_outline heq,
        ← Decl.kind_eq_of_outline heq']
    · exact hr.unique m d₀ m' d₀' hd₀ hd₀' hname
    · exact .inr ((hds d₀' hd₀').unique m d₀ hd₀ hname)
    · exact .inr (Decl.agrees_symm ((hds d₀ hd₀).unique m' d₀' hd₀' hname.symm))
    · exact .inl ⟨hm'.symm, by rw [hsame d₀ hd₀ d₀' hd₀']⟩
  case params =>
    have hparam : ∀ d₀ : Decl, d₀.outline = d.outline → (∃ q, d₀ = .param q) → ∃ q, d = .param q :=
      fun d₀ heq ⟨q, hq⟩ => ⟨q, Decl.eq_of_outline_param heq hq⟩
    rcases hg.mem hf with ⟨g₀, hg₀, hgeq⟩ | ⟨-, g₀, hg₀, hgeq⟩ <;>
      obtain ⟨g, rfl, hgname, hgparams, -⟩ := Decl.exists_of_outline_func hgeq.symm rfl <;>
      rw [← hgparams] at hp <;>
      rcases hg.mem hd with ⟨d₀, hd₀, heq⟩ | ⟨-, d₀, hd₀, heq⟩ <;>
      rw [← Decl.name_eq_of_outline heq] at hname
    · exact hparam d₀ heq (hr.params m g hg₀ p hp m' d₀ hd₀ hname)
    · exact hparam d₀ heq ((hds d₀ hd₀).params m g hg₀ p hp hname.symm)
    · exact hparam d₀ heq (((hds _ hg₀).ownParams g rfl p hp).2 m' d₀ hd₀ hname)
    · refine absurd hname.symm ?_
      rw [hsame d₀ hd₀ _ hg₀]
      exact ((hds _ hg₀).ownParams g rfl p hp).1
  case classScopes =>
    have hfield : ∀ d₀ : Decl, d₀.outline = d.outline → (∃ f, d₀ = .field f) → ∃ f, d = .field f :=
      fun d₀ heq ⟨f, hf⟩ => ⟨f, Decl.eq_of_outline_field heq hf⟩
    rcases hg.mem hd with ⟨d₀, hd₀, heq⟩ | ⟨rfl, d₀, hd₀, heq⟩ <;> rw [← Decl.kind_eq_of_outline heq] at hkind
    · exact hfield d₀ heq (hr.classScopes m hm d₀ hd₀ hkind)
    · exact hfield d₀ heq (hclass hm d₀ hd₀ hkind)
  case types =>
    rcases hg.mem hd with ⟨d₀, hd₀, heq⟩ | ⟨-, d₀, hd₀, heq⟩
    · exact Decl.typesPlain_of_outline heq (hr.types m d₀ hd₀)
    · exact Decl.typesPlain_of_outline heq (hds d₀ hd₀).types

end Session

end ProgramGen

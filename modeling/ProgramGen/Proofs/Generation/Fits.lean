import ProgramGen.Proofs.Generation.Session
import Mathlib.Data.List.Nodup

/-!
# Expressions that stay disciplined

An expression is judged by what it may come to stand in: whatever its session grows into, and
whatever a place sees, as long as it sees what the generator has seen. So an expression that fits
goes on to fit, and the parts of an expression are put together where they are made: in the scope
itself, in a block around the declarations of the scope, or in a closure.
-/

namespace ProgramGen

/-- The expressions of a statement that stands where `v` is seen. -/
def Stmt.places (v : Visibility) : Stmt → List (Visibility × Expr)
  | .decl d => d.places v
  | .expr e => [(v, e)]

namespace FuncDecl.SameHead

variable {f g k : FuncDecl}

theorem refl (f : FuncDecl) : f.SameHead f := ⟨rfl, rfl, rfl, rfl⟩

theorem trans (h : f.SameHead g) (h' : g.SameHead k) : f.SameHead k :=
  ⟨h'.name.trans h.name, h'.params.trans h.params, h'.typeParams.trans h.typeParams, h'.kind.trans h.kind⟩

end FuncDecl.SameHead

namespace Session

variable {s s' s₁ s₂ s₃ : Session} {ns m : Namespace} {root : Option Namespace}
variable {T T' : Demand} {A A' : String → Prop} {locals : Prop} {v w : Visibility} {n x : String} {e : Expr} {d : Decl}
variable {places places' : Visibility → List (Visibility × Expr)}

/-! ## Demands -/

namespace Demand.Below

theorem refl (T : Demand) : T.Below T := ⟨fun _ h => h, id⟩

theorem noTargets (h : T.locals) : noTargets.Below T := ⟨fun _ h => h.elim, fun _ => h⟩

theorem noLocals : noLocals.Below T := ⟨fun _ h => h.elim, False.elim⟩

end Demand.Below

/-! ## Later sessions -/

theorem Leads.refl (s : Session) : s.Leads s :=
  ⟨rfl, rfl, fun _ h => h, fun _ _ h => h, fun _ _ _ h => h, fun _ _ h => h, fun _ _ _ h => h,
    fun _ hc h => ⟨hc, h⟩, id, fun _ _ _ h => h, fun _ h => h, fun _ f hf => ⟨f, hf, .refl f⟩⟩

theorem Leads.trans (h : s₁.Leads s₂) (h' : s₂.Leads s₃) : s₁.Leads s₃ where
  language := h'.language.trans h.language
  config := h'.config.trans h.config
  spent n hn := h'.spent n (h.spent n hn)
  keeps ns n hn := h'.keeps ns n (h.keeps ns n hn)
  mutables ns n hn hm := h.mutables ns n hn (h'.mutables ns n (h.spent n hn) hm)
  members c n hn := h'.members c n (h.members c n hn)
  fields n b hn hf := h.fields n b hn (h'.fields n b (h.spent n hn) hf)
  finished c hc hfinished :=
    h'.finished c (h.finished c hc hfinished).1 (h.finished c hc hfinished).2
  distinct := h'.distinct ∘ h.distinct
  inSight ns locals n hn := h'.inSight ns locals n (h.inSight ns locals n hn)
  loopLocals n hn := h'.loopLocals n (h.loopLocals n hn)
  funcs ns f hf :=
    let ⟨g, hg, hfg⟩ := h.funcs ns f hf
    let ⟨k, hk, hgk⟩ := h'.funcs ns g hg
    ⟨k, hk, hfg.trans hgk⟩

theorem Leads.maxDepth_eq (h : s.Leads s') : s'.maxDepth = s.maxDepth := congrArg (·.limits.maxDepth) h.config

theorem MutableFieldOf.hasField {c : String} (h : s.MutableFieldOf c n) : s.HasField n false := by
  obtain ⟨c, hc, -, hf⟩ := h
  exact ⟨c, hc, hf⟩

theorem HasField.isMutable_of_false (h : s.HasField n false) : s.IsMutable n := .inr h

theorem Leads.isMutable (h : s.Leads s') (hn : s.Spent n) (hm : s'.IsMutable n) : s.IsMutable n :=
  hm.imp (fun ⟨ns, hm⟩ => ⟨ns, h.mutables ns n hn hm⟩) (h.fields n false hn)

theorem Leads.isMutable_of (h : s.Leads s') (hm : s.IsMutable n) : s'.IsMutable n := by
  refine hm.imp (fun ⟨ns, hm⟩ => ⟨ns, h.keeps ns n hm⟩) ?_
  rintro ⟨c, hc, hf⟩
  exact (h.members c.name n ⟨c, hc, rfl, hf⟩).hasField

theorem Leads.shared (h : s.Leads s') (hn : s.Shared ns n) : s'.Shared ns n :=
  hn.imp (h.keeps _ _) fun ⟨c, rest, hns, hup, hf⟩ => ⟨c, rest, hns, hup, h.members c n hf⟩

/-! ## What is seen -/

theorem Admits.targets_mono (h : s.Admits ns root A v) (hA : ∀ n, A' n → A n) :
    s.Admits ns root A' v :=
  ⟨h.constant, h.own, h.outer, fun n hn => h.targets n (hA n hn)⟩

/-- A scope inside, in the same closure, sees what is seen around it. -/
theorem Admits.child (h : s.Admits ns root A v) : s.Admits (ns.child x) root A v where
  constant := h.constant
  own n hn := by
    obtain ⟨m, hm, hlocal, hwithin⟩ := h.own n hn
    exact ⟨m, hm, hlocal, Namespace.child_isWithin hwithin⟩
  outer n hn := by
    obtain ⟨m, r, hm, hlocal, hwithin, hr⟩ := h.outer n hn
    exact ⟨m, r, hm, hlocal, Namespace.child_isWithin hwithin, hr⟩
  targets := h.targets

/-- A place around a closure that is about to begin. -/
theorem Admits.before_closure (h : s.Admits ns root A v) :
    s.Admits ns (some (ns.child x)) A v where
  constant := h.constant
  own := h.own
  outer n hn := by
    obtain ⟨m, r, hm, hlocal, hwithin, -⟩ := h.outer n hn
    exact ⟨m, _, hm, hlocal, hwithin, rfl, Namespace.not_isWithin_child hwithin⟩
  targets := h.targets

/-- Inside a closure the changing locals around it are no targets any more. -/
theorem Admits.closure (h : s.Admits ns root A v) :
    s.Admits (ns.child x) (some (ns.child x)) A v.enterClosure := by
  have hmem : ∀ {n a}, (n, a) ∈ v.enterClosure →
      ((n, a) ∈ v ∧ a ≠ .own) ∨ ((n, .own) ∈ v ∧ a = .outer) := by
    rintro n a hn
    obtain ⟨⟨n', a'⟩, hmem, heq⟩ := List.mem_map.mp hn
    cases a' <;> cases heq
    · exact .inl ⟨hmem, by decide⟩
    · exact .inl ⟨hmem, by decide⟩
    · exact .inr ⟨hmem, rfl⟩
    · exact .inl ⟨hmem, by decide⟩
  refine ⟨fun n hn => ?_, fun n hn => ?_, fun n hn => ?_, fun n hn => ?_⟩
  · rcases hmem hn with ⟨hn, -⟩ | ⟨-, hn⟩
    · exact h.constant n hn
    · cases hn
  · rcases hmem hn with ⟨-, hn⟩ | ⟨-, hn⟩
    · exact absurd rfl hn
    · cases hn
  · have hbelow : ∀ m, ns.isWithin m → (ns.child x).isWithin m ∧ m.isWithin (ns.child x) = false :=
      fun m hm => ⟨Namespace.child_isWithin hm,
        Namespace.not_isWithin_child hm⟩
    rcases hmem hn with ⟨hn, -⟩ | ⟨hn, -⟩
    · obtain ⟨m, r, hm, hlocal, hwithin, -⟩ := h.outer n hn
      exact ⟨m, _, hm, hlocal, (hbelow m hwithin).1, rfl, (hbelow m hwithin).2⟩
    · obtain ⟨m, hm, hlocal, hwithin⟩ := h.own n hn
      exact ⟨m, _, hm, hlocal, (hbelow m hwithin).1, rfl, (hbelow m hwithin).2⟩
  · obtain ⟨a, ha⟩ := h.targets n hn
    exact ⟨_, List.mem_map_of_mem ha⟩

/-- More that is known for what it is can be seen in front. -/
theorem Admits.prepend (h : s.Admits ns root A v)
    (hw : ∀ n a, (n, a) ∈ w → (a = .constant ∧ ¬s.IsMutable n) ∨ a = .shared ∨
      (a = .own ∧ s.HasMutable ns n ∧ ns.isGlobal = false))
    (hA : ∀ n, A' n → A n ∨ ∃ a, (n, a) ∈ w) : s.Admits ns root A' (w ++ v) := by
  refine ⟨fun n hn => ?_, fun n hn => ?_, fun n hn => ?_, fun n hn => ?_⟩
  · rcases List.mem_append.mp hn with hn | hn
    · rcases hw n _ hn with h | h | ⟨h, -⟩
      · exact h.2
      · cases h
      · cases h
    · exact h.constant n hn
  · rcases List.mem_append.mp hn with hn | hn
    · rcases hw n _ hn with ⟨h, -⟩ | h | ⟨-, hm, hlocal⟩
      · cases h
      · cases h
      · exact ⟨ns, hm, hlocal, Namespace.isWithin_refl ns⟩
    · exact h.own n hn
  · rcases List.mem_append.mp hn with hn | hn
    · rcases hw n _ hn with ⟨h, -⟩ | h | ⟨h, -⟩ <;> cases h
    · exact h.outer n hn
  · rcases hA n hn with hn | ⟨a, ha⟩
    · obtain ⟨a, ha⟩ := h.targets n hn
      exact ⟨a, List.mem_append_right _ ha⟩
    · exact ⟨a, List.mem_append_left _ ha⟩

/-- Names that never change can be seen in front. -/
theorem Admits.constants (h : s.Admits ns root A v)
    (hw : ∀ y ∈ w, y.2 = .constant ∧ ¬s.IsMutable y.1) : s.Admits ns root A (w ++ v) :=
  h.prepend (fun _ _ hn => .inl (hw _ hn)) fun _ hn => .inl hn

theorem lookup_of_mem {a : Access} (h : (n, a) ∈ v) : ∃ a', v.access? n = some a' ∧ (n, a') ∈ v := by
  induction v with
  | nil => cases h
  | cons y v ih =>
    obtain ⟨k, b⟩ := y
    by_cases hk : n = k
    · subst hk
      exact ⟨b, by simp [Visibility.access?], List.mem_cons_self⟩
    · obtain ⟨a', ha', hmem⟩ := ih ((List.mem_cons.mp h).resolve_left fun heq => hk (by cases heq; rfl))
      refine ⟨a', ?_, List.mem_cons_of_mem _ hmem⟩
      have hne : (n == k) = false := by simpa using hk
      rwa [Visibility.access?, List.lookup_cons, hne]

theorem mem_of_lookup {a : Access} (h : v.access? n = some a) : (n, a) ∈ v := by
  induction v with
  | nil => cases h
  | cons y v ih =>
    obtain ⟨k, b⟩ := y
    rw [Visibility.access?, List.lookup_cons] at h
    split at h
    · rename_i hk
      cases h
      rw [eq_of_beq hk]
      exact List.mem_cons_self
    · exact List.mem_cons_of_mem _ (ih h)

/-! ## Names in sight -/

theorem InSight.mono {locals' : Prop} (h : s.InSight ns locals n) (hlocals : locals → locals') :
    s.InSight ns locals' n := by
  obtain ⟨m, hm, d, hd, hkind, hname, hown⟩ := h
  exact ⟨m, hm, d, hd, hkind, hname, fun heq => (hown heq).imp_left hlocals⟩

/-- What a scope around declares, or the scope itself. -/
theorem inSight_of_mem (hm : m ∈ ns.lineage) (hd : d ∈ s.decls m) (hkind : d.kind = .var) :
    s.InSight ns True d.name :=
  ⟨m, hm, d, hd, hkind, rfl, fun _ => .inl trivial⟩

/-- What is in sight in a scope inside is in sight around it, or the scope inside declares it. -/
theorem InSight.of_child (h : s.InSight (ns.child x) locals n) : s.InSight ns True n ∨
    ∃ d ∈ s.decls (ns.child x), d.kind = .var ∧ d.name = n ∧ (locals ∨ ∃ p, d = .param p) := by
  obtain ⟨m, hm, d, hd, hkind, rfl, hown⟩ := h
  obtain ⟨hwithin, hne⟩ := Namespace.mem_lineage.mp hm
  by_cases heq : m = ns.child x
  · exact .inr ⟨d, heq ▸ hd, hkind, rfl, hown heq⟩
  · exact .inl (inSight_of_mem (Namespace.mem_lineage.mpr ⟨Namespace.isWithin_of_child hwithin heq, hne⟩) hd hkind)

theorem Shows.mono (h : s.Shows A v) (hA : ∀ n, A' n → A n) : s.Shows A' v := fun n hn => h n (hA n hn)

/-- More that is seen in front does no harm. -/
theorem resolves_append (h : s.context.Resolves v n) : s.context.Resolves (w ++ v) n :=
  h.imp_left fun ⟨_, ha⟩ => (lookup_of_mem (List.mem_append_right w (mem_of_lookup ha))).imp fun _ h => h.1

theorem resolves_of_mem {a : Access} (h : (n, a) ∈ v) : s.context.Resolves v n :=
  .inl ((lookup_of_mem h).imp fun _ h => h.1)

/-- A closure sees the names that are in sight around it. -/
theorem resolves_enterClosure (h : s.context.Resolves v n) : s.context.Resolves v.enterClosure n := by
  rcases h with ⟨a, ha⟩ | h
  · exact resolves_of_mem (List.mem_map.mpr ⟨_, mem_of_lookup ha, rfl⟩)
  · exact .inr h

/-! ## Fitting -/

/-- **What fits goes on to fit.** -/
theorem Fits.mono (h : s.Fits ns root T places) (hl : s.Leads s') (hT : T.Below T') :
    s'.Fits ns root T' places := fun s'' hl' v hv hsight =>
  h s'' (hl.trans hl') v (hv.targets_mono fun n hn => hn.imp hl.shared (hT.targets n)) fun n hn =>
    hsight n ((hl.inSight ns _ n hn).mono hT.locals)

theorem Fits.targets (h : s.Fits ns root T places) (hT : T.Below T') : s.Fits ns root T' places :=
  h.mono (.refl s) hT

/-- What fits where more or other things are seen. -/
theorem Fits.within {ns' : Namespace} {root' : Option Namespace} {g : Visibility → Visibility}
    (h : s.Fits ns' root' T' places)
    (hg : ∀ s', s.Leads s' → ∀ v, s'.Admits ns root (fun n => s.Shared ns n ∨ T.targets n) v →
      s'.Admits ns' root' (fun n => s.Shared ns' n ∨ T'.targets n) (g v))
    (hsight : ∀ s', s.Leads s' → ∀ v, s'.Shows (s.InSight ns T.locals) v → s'.Shows (s.InSight ns' T'.locals) (g v)) :
    s.Fits ns root T fun v => places (g v) :=
  fun s' hl v hv hv' => h s' hl (g v) (hg s' hl v hv) (hsight s' hl v hv')

theorem Fits.nil : s.Fits ns root T fun _ => [] := fun _ _ _ _ _ _ h => by cases h

theorem Fits.append (h : s.Fits ns root T places) (h' : s.Fits ns root T places') :
    s.Fits ns root T fun v => places v ++ places' v := fun s' hl v hv hsight x hx => by
  rcases List.mem_append.mp hx with hx | hx
  · exact h s' hl v hv hsight x hx
  · exact h' s' hl v hv hsight x hx

theorem Fits.flatMap {α : Type} {xs : List α} {f : α → Visibility → List (Visibility × Expr)}
    (h : ∀ a ∈ xs, s.Fits ns root T (f a)) : s.Fits ns root T fun v => xs.flatMap (f · v) :=
  fun s' hl v hv hsight x hx => by
    obtain ⟨a, ha, hx⟩ := List.mem_flatMap.mp hx
    exact h a ha s' hl v hv hsight x hx

/-- The expressions of a list stand in one place. -/
theorem Fits.exprs {es : List Expr} (h : ∀ e ∈ es, s.Fits ns root T fun v => [(v, e)]) :
    s.Fits ns root T fun v => es.map (v, ·) := fun s' hl v hv hsight x hx => by
  obtain ⟨e, he, rfl⟩ := List.mem_map.mp hx
  exact h e he s' hl v hv hsight _ (List.mem_singleton_self _)

theorem Leads.shaped (hl : s.Leads s') (h : e.Shaped s.language (rootDepth s.maxDepth)) :
    e.Shaped s'.language (rootDepth s'.maxDepth) := by
  unfold maxDepth
  rwa [hl.language, hl.config]

theorem Leads.shapes (hl : s.Leads s') (h : s.Shapes d) : s'.Shapes d := by
  unfold Shapes maxDepth
  rwa [hl.language, hl.config]

theorem Leads.shapesRoot (hl : s.Leads s') (h : s.ShapesRoot e) : s'.ShapesRoot e := by
  obtain ⟨hdepth, hvalue⟩ := h
  refine ⟨?_, by rwa [hl.language]⟩
  unfold maxDepth
  rwa [hl.config]

/-- An expression fits if it is disciplined and well formed itself and its parts fit. -/
theorem Fits.node (hshaped : e.Shaped s.language (rootDepth s.maxDepth))
    (haccess : ∀ s', s.Leads s' → ∀ v, s'.Admits ns root (fun n => s.Shared ns n ∨ T.targets n) v →
      e.Accesses s'.context v)
    (hconstruct : ∀ s', s.Leads s' → e.Constructs s'.context s'.language)
    (hparts : s.Fits ns root T e.places)
    (hread : ∀ s', s.Leads s' → ∀ v, s'.Shows (s.InSight ns T.locals) v → e.Reads s'.context v := by
      intros; trivial) : s.Fits ns root T fun v => [(v, e)] :=
  fun s' hl v hv hsight x hx => by
    rw [List.mem_singleton.mp hx]
    exact ⟨haccess s' hl v hv, hread s' hl v hsight, hl.language ▸ hconstruct s' hl, hl.shaped hshaped,
      hparts s' hl v hv hsight⟩

/-- A flat expression fits if its types are what is asked for, and its direct parts fit and have
values. -/
theorem Fits.of_children (hflat : e.isFlat) (htypes : ∀ t ∈ e.types, t.Requested)
    (hvalues : s.language = .java → ∀ a ∈ e.children, a.isValue)
    (haccess : ∀ s', s.Leads s' → ∀ v, s'.Admits ns root (fun n => s.Shared ns n ∨ T.targets n) v →
      e.Accesses s'.context v)
    (hconstruct : ∀ s', s.Leads s' → e.Constructs s'.context s'.language)
    (h : ∀ a ∈ e.children, s.Fits ns root T fun v => [(v, a)])
    (hread : ∀ s', s.Leads s' → ∀ v, s'.Shows (s.InSight ns T.locals) v → e.Reads s'.context v := by
      intros; trivial) : s.Fits ns root T fun v => [(v, e)] := by
  refine .node (.of_isFlat hflat (fun t ht => (htypes t ht).formed) hvalues) haccess hconstruct
    (fun s' hl v hv hsight => ?_) hread
  show ∀ x ∈ e.places v, _
  rw [Expr.places_of_isFlat hflat v]
  exact Fits.exprs h s' hl v hv hsight

/-! ## Scopes inside -/

theorem shared_of_child (h : ns ≠ .global ∨ startsUppercase x = false)
    (hroot : ns.segments.head? = some Namespace.globalSegment) (hn : s.Shared (ns.child x) n) :
    s.Shared ns n := by
  refine hn.imp_right fun ⟨c, rest, hseg, hup, hf⟩ => ?_
  obtain ⟨segments⟩ := ns
  match segments, hroot with
  | [a], hroot =>
    obtain rfl : a = Namespace.globalSegment := Option.some.inj hroot
    obtain rfl : x = c := by
      have := (List.cons.inj hseg).2
      exact (List.cons.inj this).1
    rcases h with h | h
    · exact absurd rfl h
    · rw [hup] at h
      cases h
  | a :: b :: more, hroot =>
    obtain ⟨ha, hrest⟩ := List.cons.inj (hseg : a :: (b :: more ++ [x]) = _)
    obtain ⟨hb, -⟩ := List.cons.inj hrest
    exact ⟨c, more, by rw [ha, hb], hup, hf⟩

/-- A scope inside that is no class. -/
structure IsInner (ns : Namespace) (x : String) : Prop where
  rooted : ns.segments.head? = some Namespace.globalSegment
  inner : ns ≠ .global ∨ startsUppercase x = false

theorem IsInner.shared (h : IsInner ns x) (hn : s.Shared (ns.child x) n) : s.Shared ns n :=
  shared_of_child h.inner h.rooted hn

/-- A scope inside declares no parameters but those in front. -/
def ParamsAre (s : Session) (ns : Namespace) (w : Visibility) : Prop :=
  ∀ p, .param p ∈ s.decls ns → ∃ a, (p.name, a) ∈ w

/-- What a place around sees is enough for one in a scope inside, behind the parameters of that scope. -/
theorem Shows.of_child (h : s'.Shows (s.InSight ns True) v) (hparams : s.ParamsAre (ns.child x) w) :
    s'.Shows (s.InSight (ns.child x) False) (w ++ v) := fun n hn => by
  rcases hn.of_child with hn | ⟨d, hd, -, rfl, hfalse | ⟨p, rfl⟩⟩
  · exact resolves_append (h n hn)
  · exact hfalse.elim
  · exact resolves_of_mem (List.mem_append_left _ (hparams p hd).choose_spec)

theorem Shows.enterClosure (h : s.Shows A v) : s.Shows A v.enterClosure := fun n hn => resolves_enterClosure (h n hn)

/-- What fits in a scope inside fits around it, behind names that never change. -/
theorem Fits.of_child_constants (h : s.Fits (ns.child x) root ⟨A, False⟩ places) (hx : IsInner ns x)
    (hw : ∀ y ∈ w, y.2 = .constant ∧ s.Spent y.1 ∧ ¬s.IsMutable y.1) (hparams : s.ParamsAre (ns.child x) w) :
    s.Fits ns root ⟨A, True⟩ fun v => places (w ++ v) :=
  h.within (g := (w ++ ·)) (fun _ hl _ hv =>
    (hv.targets_mono fun _ hn => hn.imp_left hx.shared).child.constants fun y hy =>
      ⟨(hw y hy).1, fun hm => (hw y hy).2.2 (hl.isMutable (hw y hy).2.1 hm)⟩) fun _ _ _ hv => hv.of_child hparams

/-- What fits in a scope inside without parameters fits around it. -/
theorem Fits.of_child (h : s.Fits (ns.child x) root ⟨A, False⟩ places) (hx : IsInner ns x)
    (hparams : s.ParamsAre (ns.child x) []) : s.Fits ns root ⟨A, True⟩ places :=
  h.of_child_constants (w := []) hx nofun hparams

/-- What fits in a closure fits around it. -/
theorem Fits.of_closure (h : s.Fits (ns.child x) (some (ns.child x)) ⟨A, False⟩ places) (hx : IsInner ns x)
    (hw : ∀ y ∈ w, y.2 = .constant ∧ s.Spent y.1 ∧ ¬s.IsMutable y.1) (hparams : s.ParamsAre (ns.child x) w) :
    s.Fits ns root ⟨A, True⟩ fun v => places (w ++ v.enterClosure) :=
  h.within (g := fun v => w ++ Visibility.enterClosure v) (fun _ hl _ hv =>
    (hv.targets_mono fun _ hn => hn.imp_left hx.shared).closure.constants fun y hy =>
      ⟨(hw y hy).1, fun hm => (hw y hy).2.2 (hl.isMutable (hw y hy).2.1 hm)⟩)
    fun _ _ _ hv => hv.enterClosure.of_child hparams

/-- What fits before a closure fits. -/
theorem Fits.of_before_closure (h : s.Fits ns (some (ns.child x)) T places) :
    s.Fits ns root T places :=
  h.within (g := id) (fun _ _ _ hv => hv.before_closure) fun _ _ _ hv => hv

/-! ## Variables -/

/-- A changing variable that can be assigned in the current scope: one of the top level, or a local one
of no closure or of the closure that the scope is in. -/
def AssignableVar (s : Session) (x : String) : Prop :=
  ∃ m, s.HasMutable m x ∧ (m = .global ∨ m.isGlobal = false ∧ m ∈ s.frame.ns.lineage ∧
    ∀ r ∈ s.frame.captureRoot, m.isWithin r)

theorem AssignableVar.target (h : s.AssignableVar x) : s.Shared s.frame.ns x ∨ s.LocalTargets x := by
  obtain ⟨m, hm, rfl | ⟨hglobal, hmem, hwithin⟩⟩ := h
  · exact .inl (.inl hm)
  · exact .inr ⟨m, hm, hglobal, hmem, hwithin⟩

namespace Sound

theorem spent (hs : s.Sound) (hd : d ∈ s.decls ns) (hn : n ∈ d.names) : s.Spent n :=
  hs.taken n ⟨ns, d, hd, hn⟩

theorem name_mem_names (d : Decl) : d.name ∈ d.names := by
  cases d <;> simp [Decl.name, Decl.names]

/-- Two declarations of one name are the same one, or agree. -/
theorem eq_or_agrees (hs : s.Sound) {d' : Decl} (hd : d ∈ s.decls ns) (hd' : d' ∈ s.decls m)
    (hname : d.name = d'.name) : (ns = m ∧ d = d') ∨ d.Agrees d' := by
  refine (hs.unique ns d m d' hd hd' hname).imp_left ?_
  rintro ⟨rfl, hkind⟩
  exact ⟨rfl, List.inj_on_of_nodup_map (hs.keys ns) hd hd' (Prod.ext hkind hname)⟩

theorem spent_name (hs : s.Sound) (hd : d ∈ s.decls ns) : s.Spent d.name :=
  hs.spent hd (name_mem_names d)

/-- A changing variable is the only declaration of its name. -/
theorem eq_of_hasMutable (hs : s.Sound) (hd : d ∈ s.decls ns) (hm : s.HasMutable m d.name) :
    m = ns ∧ ∃ x : VarDecl, d = .var x ∧ x.isFinal = false := by
  obtain ⟨x, hx, hname, hfinal⟩ := hm
  rcases hs.eq_or_agrees hx hd hname with ⟨rfl, rfl⟩ | hagrees
  · exact ⟨rfl, x, rfl, hfinal⟩
  · cases d with
    | var y => exact absurd hagrees.1 (by simp [hfinal])
    | _ => cases hagrees

theorem field_mem (hs : s.Sound) {c : ClassDecl} (hc : c ∈ s.classes) {f : FieldDecl}
    (hf : f ∈ c.fields) : .field f ∈ s.decls c.scope := by
  rw [(hs.members c hc).1, Context.fieldsIn, List.mem_filterMap] at hf
  obtain ⟨d, hd, hdf⟩ := hf
  cases d <;> cases hdf
  exact hd

theorem func_mem (hs : s.Sound) {c : ClassDecl} (hc : c ∈ s.classes) {f : FuncDecl}
    (hf : f ∈ c.funcs) : .func f ∈ s.decls c.scope := by
  rw [(hs.members c hc).2, Context.funcsIn, List.mem_filterMap] at hf
  obtain ⟨d, hd, hdf⟩ := hf
  cases d <;> cases hdf
  exact hd

/-- The fields of one name are all final, or all of them change. -/
theorem hasField_unique (hs : s.Sound) {b b' : Bool} (h : s.HasField n b) (h' : s.HasField n b') :
    b = b' := by
  obtain ⟨c, hc, f, hf, hname, rfl⟩ := h
  obtain ⟨c', hc', f', hf', hname', rfl⟩ := h'
  rcases hs.eq_or_agrees (hs.field_mem hc hf) (hs.field_mem hc' hf')
    (show f.name = f'.name from hname.trans hname'.symm) with ⟨-, h⟩ | h
  · cases h
    rfl
  · exact h

/-- What is declared as something that does not change is nowhere a thing that does. -/
theorem not_isMutable (hs : s.Sound) (hd : d ∈ s.decls ns)
    (hvar : ∀ x : VarDecl, d = .var x → x.isFinal) (hfield : ∀ f : FieldDecl, d = .field f → f.isFinal) :
    ¬s.IsMutable d.name := by
  rintro (⟨m, hm⟩ | ⟨c, hc, f, hf, hname, hfinal⟩)
  · obtain ⟨-, x, rfl, hx⟩ := hs.eq_of_hasMutable hd hm
    rw [hvar x rfl] at hx
    cases hx
  · rcases hs.eq_or_agrees (hs.field_mem hc hf) hd hname with ⟨-, rfl⟩ | hagrees
    · rw [hfield f rfl] at hfinal
      cases hfinal
    · cases d with
      | field g =>
        rw [show f.isFinal = g.isFinal from hagrees, hfield g rfl] at hfinal
        cases hfinal
      | _ => cases hagrees

/-- What can be read is declared. -/
theorem exists_of_mem_readableVars (hd : d ∈ s.readableVars) :
    ∃ m ∈ s.frame.ns.lineage, d ∈ s.decls m ∧ d.kind = .var ∧ s.canRead m d := by
  obtain ⟨⟨m, d'⟩, hmem, hsome⟩ := List.mem_filterMap.mp hd
  obtain ⟨hread, heq⟩ := Option.ite_none_right_eq_some.mp hsome
  obtain rfl : d' = d := Option.some.inj heq
  obtain ⟨hlineage, hdecl, hkind⟩ := Context.mem_scopedVars hmem
  exact ⟨m, hlineage, hdecl, hkind, hread⟩

/-- A declaration that can be read is no changing local of the code around the closure. -/
theorem access_ne_outer (hs : s.Sound) (hd : d ∈ s.decls m) (hread : s.canRead m d) (hl : s.Leads s')
    (hv : s'.Admits s.frame.ns s.frame.captureRoot A v) : v.access? d.name ≠ some .outer := by
  intro haccess
  obtain ⟨m', r, hm', hlocal, -, hr, hout⟩ := hv.outer d.name (mem_of_lookup haccess)
  obtain ⟨rfl, x, rfl, hx⟩ := hs.eq_of_hasMutable hd (hl.mutables m' _ (hs.spent_name hd) hm')
  simp only [canRead, hr, hx, hlocal, hout] at hread
  cases hread

/-- A changing variable can be assigned in its own scope and below, in a body. -/
theorem assignableVar_here (hs : s.Sound) (hbody : s.frame.inFuncBody) (h : s.HasMutable s.frame.ns n) :
    s.AssignableVar n := by
  refine ⟨_, h, ?_⟩
  by_cases hglobal : s.frame.ns = .global
  · exact .inl hglobal
  · refine .inr ⟨?_, Namespace.self_mem_lineage hs.rooted, (hs.body hbody).2⟩
    rwa [← Bool.not_eq_true, Namespace.isGlobal_iff hs.rooted]

/-- A scope around the current one starts at the top level, too. -/
theorem rooted_of_mem_lineage (hs : s.Sound) (h : m ∈ s.frame.ns.lineage) :
    m.segments.head? = some Namespace.globalSegment := by
  obtain ⟨hwithin, hne⟩ := Namespace.mem_lineage.mp h
  obtain ⟨rest, hrest⟩ := Namespace.isWithin_iff.mp hwithin
  rw [← hs.rooted, ← hrest, List.head?_append_of_ne_nil _ hne]

theorem assignableVar_of_mem (hs : s.Sound) {x : VarDecl} (h : .var x ∈ s.assignableVars) : s.AssignableVar x.name := by
  obtain ⟨⟨m, d'⟩, hmem, hsome⟩ := List.mem_filterMap.mp h
  obtain ⟨hassign, heq⟩ := Option.ite_none_right_eq_some.mp hsome
  obtain rfl : d' = .var x := Option.some.inj heq
  obtain ⟨hlineage, hdecl, -⟩ := Context.mem_scopedVars hmem
  simp only [canAssign, Bool.and_eq_true, Bool.not_eq_true'] at hassign
  obtain ⟨hfinal, hassign⟩ := hassign
  refine ⟨m, ⟨x, hdecl, rfl, hfinal⟩, ?_⟩
  by_cases hglobal : m.isGlobal
  · exact .inl ((Namespace.isGlobal_iff (hs.rooted_of_mem_lineage hlineage)).mp hglobal)
  · refine .inr ⟨by simpa using hglobal, hlineage, fun r hr => ?_⟩
    rw [Option.mem_def.mp hr] at hassign
    simpa [hglobal] using hassign

/-- What can be assigned is a shared variable or a local target. -/
theorem target_of_mem_assignableVars (hs : s.Sound) (hd : d ∈ s.assignableVars) :
    s.Shared s.frame.ns d.name ∨ s.LocalTargets d.name := by
  cases d with
  | var x => exact (hs.assignableVar_of_mem hd).target
  | field f =>
    obtain ⟨⟨m, d'⟩, hmem, hsome⟩ := List.mem_filterMap.mp hd
    obtain ⟨hassign, heq⟩ := Option.ite_none_right_eq_some.mp hsome
    obtain rfl : d' = .field f := Option.some.inj heq
    obtain ⟨hlineage, hdecl, -⟩ := Context.mem_scopedVars hmem
    obtain ⟨c, hc, rfl⟩ := hs.fields m f hdecl
    obtain ⟨rest, hrest⟩ := Namespace.isWithin_iff.mp (Namespace.mem_lineage.mp hlineage).1
    refine .inl (.inr ⟨c.name, rest, hrest.symm, (hs.classes c hc).named, c, hc, rfl, f, ?_, rfl, ?_⟩)
    · rw [(hs.members c hc).1]
      exact List.mem_filterMap.mpr ⟨_, hdecl, rfl⟩
    · simpa [canAssign] using hassign
  | _ =>
    obtain ⟨⟨m, d'⟩, -, hsome⟩ := List.mem_filterMap.mp hd
    obtain ⟨hassign, heq⟩ := Option.ite_none_right_eq_some.mp hsome
    rw [Option.some.inj heq] at hassign
    cases hassign

theorem spent_of_target (hs : s.Sound) (h : s.Shared ns n ∨ s.LocalTargets n) : s.Spent n := by
  have hvar : ∀ m, s.HasMutable m n → s.Spent n := fun m ⟨x, hx, hname, _⟩ =>
    hname ▸ hs.spent_name hx
  rcases h with (h | ⟨c, _, -, -, d, hd, -, f, hf, rfl, -⟩) | ⟨m, hm, -⟩
  · exact hvar _ h
  · exact hs.spent_name (hs.field_mem hd hf)
  · exact hvar m hm

/-- **A place that sees the targets can assign them.** -/
theorem isTarget_access (hs : s.Sound) (hn : s.Shared s.frame.ns n ∨ s.LocalTargets n) (hl : s.Leads s')
    (hv : s'.Admits s.frame.ns s.frame.captureRoot A v) (hA : A n) :
    ∃ a, v.access? n = some a ∧ a.isTarget := by
  obtain ⟨a, ha⟩ := hv.targets n hA
  obtain ⟨a, haccess, hmem⟩ := lookup_of_mem ha
  refine ⟨a, haccess, ?_⟩
  have hspent := hs.spent_of_target hn
  cases a with
  | shared => rfl
  | own => rfl
  | constant =>
    refine absurd (hl.isMutable_of ?_) (hv.constant n hmem)
    rcases hn with (h | ⟨c, _, -, -, h⟩) | ⟨m, h, -⟩
    · exact .inl ⟨_, h⟩
    · exact h.hasField.isMutable_of_false
    · exact .inl ⟨m, h⟩
  | outer =>
    exfalso
    obtain ⟨m, r, hm, hlocal, -, hr, hout⟩ := hv.outer n hmem
    have hm := hl.mutables m n hspent hm
    rcases hn with (h | ⟨c, _, -, -, d, hd, -, f, hf, rfl, -⟩) | ⟨m', h, -, -, hinside⟩
    · obtain ⟨x, hx, rfl, -⟩ := hm
      obtain ⟨rfl, -⟩ := hs.eq_of_hasMutable hx h
      cases hlocal
    · obtain ⟨-, y, hy, -⟩ := hs.eq_of_hasMutable (hs.field_mem hd hf) hm
      cases hy
    · obtain ⟨x, hx, rfl, -⟩ := hm
      obtain ⟨rfl, -⟩ := hs.eq_of_hasMutable hx h
      rw [hinside r hr] at hout
      cases hout

end Sound

/-! ## Blocks -/

/-- What is seen in a block of the current scope, behind what is seen around it. -/
theorem Sound.admits_locals (hs : s.Sound) {b : Block} (hlocal : s.frame.ns.isGlobal = false)
    (hdecls : ∀ x : VarDecl, Stmt.decl (.var x) ∈ b.stmts → .var x ∈ s.decls s.frame.ns) (hl : s.Leads s')
    (hv : s'.Admits s.frame.ns root A v)
    (hA : ∀ n, A' n → A n ∨ ∃ x : VarDecl, Stmt.decl (.var x) ∈ b.stmts ∧ x.name = n) :
    s'.Admits s.frame.ns root A' (b.locals ++ v) := by
  have hmem : ∀ y ∈ b.locals, ∃ x : VarDecl, Stmt.decl (.var x) ∈ b.stmts ∧
      y = (x.name, x.localAccess) := by
    intro y hy
    obtain ⟨st, hst, heq⟩ := List.mem_filterMap.mp hy
    cases st with
    | expr e => cases heq
    | decl d =>
      cases d <;> cases heq
      exact ⟨_, hst, rfl⟩
  refine hv.prepend (fun n a hna => ?_) fun n hn =>
    (hA n hn).imp_right fun ⟨x, hx, heq⟩ => heq ▸ ⟨_, List.mem_filterMap.mpr ⟨_, hx, rfl⟩⟩
  obtain ⟨x, hx, heq⟩ := hmem _ hna
  obtain ⟨rfl, rfl⟩ := Prod.mk.inj heq
  have hdecl := hdecls x hx
  cases hfinal : x.isFinal with
  | true =>
    refine .inl ⟨by simp [VarDecl.localAccess, hfinal], fun hm => ?_⟩
    refine hs.not_isMutable hdecl (fun y hy => ?_) nofun
      (hl.isMutable (hs.spent_name hdecl) hm)
    cases hy
    exact hfinal
  | false =>
    exact .inr (.inr ⟨by simp [VarDecl.localAccess, hfinal], hl.keeps _ _ ⟨x, hdecl, rfl, hfinal⟩,
      hlocal⟩)

/-- The local variables of the current scope are seen: they stand in the block, or they are in sight around
the scope or named like a local variable of a loop. -/
def Collects (s : Session) (b : Block) : Prop :=
  ∀ x : VarDecl, .var x ∈ s.decls s.frame.ns →
    Stmt.decl (.var x) ∈ b.stmts ∨ s.InSight s.frame.ns False x.name ∨ s.context.LoopLocal x.name

/-- A block shows its own variables besides what is seen around it. -/
theorem Collects.shows {b : Block} (h : s.Collects b) (hs : s.Sound) (hclass : s.frame.ns.className? = none)
    (hl : s.Leads s') (hv : s'.Shows (s.InSight s.frame.ns False) v) :
    s'.Shows (s.InSight s.frame.ns True) (b.locals ++ v) := by
  rintro n ⟨m, hm, d, hd, hkind, rfl, -⟩
  by_cases hparam : m = s.frame.ns ∧ ∀ p, d ≠ .param p
  · obtain ⟨rfl, hparam⟩ := hparam
    cases d with
    | var x =>
      rcases h x hd with hx | hx | hx
      · exact resolves_of_mem (List.mem_append_left _ (List.mem_filterMap.mpr ⟨_, hx, rfl⟩))
      · exact resolves_append (hv _ hx)
      · exact .inr (hl.loopLocals _ hx)
    | param p => exact absurd rfl (hparam p)
    | field f =>
      obtain ⟨c, hc, hscope⟩ := hs.fields _ f hd
      rw [hscope, ClassDecl.scope, Namespace.className?_classScope (hs.classes c hc).named] at hclass
      cases hclass
    | _ => cases hkind
  · refine resolves_append (hv _ ⟨m, hm, d, hd, hkind, rfl, fun heq => .inr ?_⟩)
    simpa [heq] using hparam

/-- **A block for the current scope fits around it.** It has the declarations of the scope, at least
those of changing variables, and expressions that fit in the scope. -/
theorem Sound.fits_block (hs : s.Sound) {b : Block} (hlocal : s.frame.ns.IsLocal)
    (hdecls : ∀ d, Stmt.decl d ∈ b.stmts → d ∈ s.localDecls ∧ s.DeclFits d)
    (hexprs : ∀ e, Stmt.expr e ∈ b.stmts → s.FitsHere ⟨A, True⟩ e) (hcollects : s.Collects b)
    (hA : ∀ n, A n → A' n ∨ ∃ x : VarDecl, Stmt.decl (.var x) ∈ b.stmts ∧ x.name = n) :
    s.Fits s.frame.ns s.frame.captureRoot ⟨A', False⟩ b.places := by
  have hparts : s.Fits s.frame.ns s.frame.captureRoot ⟨A, True⟩ fun v => b.stmts.flatMap (Stmt.places v) := by
    refine Fits.flatMap (f := fun st v => Stmt.places v st) fun st hst => ?_
    cases st with
    | decl d => exact (hdecls d hst).2.fits.targets (.noTargets trivial)
    | expr e => exact hexprs e hst
  have hglobal : s.frame.ns.isGlobal = false := by
    rw [← Bool.not_eq_true, Namespace.isGlobal_iff hs.rooted]
    exact hlocal.ne_global
  refine hparts.within (g := (b.locals ++ ·)) (fun s' hl v hv => hs.admits_locals hglobal
    (fun x hx => List.mem_of_mem_filter (hdecls _ hx).1) hl hv fun n hn => ?_)
    fun s' hl v hv => hcollects.shows hs hlocal.className?_eq hl hv
  rcases hn with hn | hn
  · exact .inl (.inl hn)
  · exact (hA n hn).imp_left .inr

end Session

end ProgramGen

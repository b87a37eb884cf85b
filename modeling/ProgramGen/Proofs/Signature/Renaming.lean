import ProgramGen.Proofs.Generation.Override
import ProgramGen.Proofs.Signature.Pruning

/-!
# Renamed type parameters

The name of a type parameter of an inherited function may be visible already in the class that overrides
the function. The parameter gets a new letter then, which neither the class nor the function uses. Its bound
is seen as the class views it, where parameters keep their letters. So the function is renamed as a whole
as long as no bound of a renamed parameter mentions a renamed one.
-/

namespace ProgramGen

open Session Gen

variable {s s' : Session} {e : Engine} {ns : Namespace} {f g : FuncDecl} {t u : Ty} {m view view' : Subst}
variable {p q : TypeParam} {ps : List TypeParam} {visible taken : List String} {letter rename : String → String}
variable {n : String}

/-! ## New letters -/

/-- The type parameters whose names are visible. -/
def clashing (visible : List String) (ps : List TypeParam) : List TypeParam :=
  ps.filter fun p => visible.contains p.name

theorem mem_clashing : p ∈ clashing visible ps ↔ p ∈ ps ∧ p.name ∈ visible := by simp [clashing]

/-- The letters that are not taken. -/
def freeLetters (taken : List String) : List String := capitalLetters.filter fun c => !taken.contains c

/-- A letter that is drawn is not free any more. -/
theorem length_freeLetters {c : String} (hc : c ∈ capitalLetters) (hfree : c ∉ taken) :
    (freeLetters (taken ++ [c])).length + 1 = (freeLetters taken).length := by
  have hmem : c ∈ freeLetters taken := List.mem_filter.mpr ⟨hc, by simpa using hfree⟩
  have herase : freeLetters (taken ++ [c]) = (freeLetters taken).erase c := by
    unfold freeLetters
    rw [(capitalLetters_nodup.filter _).erase_eq_filter, List.filter_filter]
    refine List.filter_congr fun d _ => ?_
    simp [bne, Bool.and_comm, beq_eq_decide]
  rw [herase, List.length_erase_of_mem hmem]
  have := List.length_pos_of_mem hmem
  omega

/-- What becomes of a substitution when type parameters are given letters that are not taken. Their bounds
are seen through `m`. -/
structure Subst.Relettered (m view : Subst) (ps : List TypeParam) (taken : List String)
    (letter : String → String) (view' : Subst) : Prop where
  other : ∀ n, n ∉ ps.map (·.name) → view'.lookup n = view.lookup n
  renamed : ∀ p ∈ ps, view'.lookup p.name =
    some (.param ⟨"F_" ++ letter p.name, p.variance, p.bound.map (Ty.subst m)⟩)
  fresh : ∀ p ∈ ps, letter p.name ∈ capitalLetters ∧ letter p.name ∉ taken
  distinct : (ps.map fun p => letter p.name).Nodup

theorem Subst.Relettered.nil : Relettered m view [] taken letter view :=
  ⟨fun _ _ => rfl, nofun, nofun, .nil⟩

/-- One more type parameter is given a letter first. -/
theorem Subst.Relettered.cons {c : String} (hc : c ∈ capitalLetters) (hfree : c ∉ taken)
    (hp : p.name ∉ ps.map (·.name))
    (h : Relettered m (Subst.insert view p (.param ⟨"F_" ++ c, p.variance, p.bound.map (Ty.subst m)⟩)) ps
      (taken ++ [c]) letter view') :
    Relettered m view (p :: ps) taken (Function.update letter p.name c) view' := by
  have hne : ∀ q ∈ ps, q.name ≠ p.name := fun q hq heq => hp (heq ▸ List.mem_map_of_mem hq)
  have hupdate : ∀ q ∈ ps, Function.update letter p.name c q.name = letter q.name := fun q hq =>
    Function.update_of_ne (hne q hq) _ _
  have hfresh : ∀ q ∈ ps, letter q.name ≠ c := fun q hq heq => by
    have := (h.fresh q hq).2
    simp [heq] at this
  refine ⟨fun n hn => ?_, List.forall_mem_cons.mpr ⟨?_, fun q hq => ?_⟩,
    List.forall_mem_cons.mpr ⟨?_, fun q hq => ?_⟩, ?_⟩
  · rw [List.map_cons, List.mem_cons, not_or] at hn
    rw [h.other n hn.2, lookup_insert, if_neg (Ne.symm hn.1)]
  · rw [h.other _ hp, lookup_insert, if_pos rfl, Function.update_self]
  · rw [hupdate q hq, h.renamed q hq]
  · rw [Function.update_self]
    exact ⟨hc, hfree⟩
  · rw [hupdate q hq]
    exact ⟨(h.fresh q hq).1, fun hmem => (h.fresh q hq).2 (List.mem_append_left _ hmem)⟩
  · rw [List.map_cons, List.nodup_cons, Function.update_self, List.map_congr_left hupdate]
    refine ⟨fun hmem => ?_, h.distinct⟩
    obtain ⟨q, hq, heq⟩ := List.mem_map.mp hmem
    exact hfresh q hq heq

/-- **Type parameters that clash are given letters**, each one that is not taken, if there are enough. -/
theorem Gen.renameClashing_yields (hnodup : (ps.map (·.name)).Nodup)
    (hroom : (clashing visible ps).length ≤ (freeLetters taken).length) :
    (renameClashing m visible ps taken view).Yields OnlyDraws s fun view' _ =>
      ∃ letter, Subst.Relettered m view (clashing visible ps) taken letter view' := by
  induction ps generalizing s taken view with
  | nil => exact .pure ⟨id, .nil⟩
  | cons p ps ih =>
    obtain ⟨hp, hnodup⟩ := List.nodup_cons.mp hnodup
    rw [renameClashing]
    split
    · rename_i hclash
      have hcons : clashing visible (p :: ps) = p :: clashing visible ps := List.filter_cons_of_pos hclash
      rw [hcons] at hroom ⊢
      have hpos : 0 < (freeLetters taken).length := (Nat.succ_pos _).trans_le hroom
      refine Yields.bind (Q := fun o _ => ∃ c ∈ capitalLetters, c ∉ taken ∧ o = some c)
        (.rand fun o stream h => ?_) fun o s₁ _ ho => ?_
      · obtain ⟨hletter, hnone⟩ := canGive_freshLetter h
        cases o with
        | some c => exact ⟨c, (hletter c rfl).1, (hletter c rfl).2, rfl⟩
        | none =>
          obtain ⟨c, hc⟩ := List.exists_mem_of_length_pos hpos
          obtain ⟨hc, hfree⟩ := List.mem_filter.mp hc
          simp [hnone rfl c hc] at hfree
      · obtain ⟨c, hc, hfree, rfl⟩ := ho
        have hlength := length_freeLetters hc hfree
        have hrest : (clashing visible ps).length ≤ (freeLetters (taken ++ [c])).length := by
          rw [List.length_cons] at hroom
          omega
        refine (ih hnodup hrest).mono fun view' _ _ hletter => ?_
        obtain ⟨letter, h⟩ := hletter
        exact ⟨_, .cons hc hfree (fun hmem => hp ((List.filter_sublist.map _).subset hmem)) h⟩
    · rename_i hclash
      have hcons : clashing visible (p :: ps) = clashing visible ps := List.filter_cons_of_neg hclash
      rw [hcons] at hroom ⊢
      exact ih hnodup hroom

/-! ## One renaming -/

/-- The substitution is the view `m`, with the type parameters renamed in all types and bounds. -/
structure Subst.Renames (m : Subst) (ps : List TypeParam) (rename : String → String) (view : Subst) : Prop where
  other : ∀ n, n ∉ ps.map (·.name) → view.lookup n = m.lookup n
  param : ∀ p ∈ ps, (Ty.param p).subst view =
    .param ⟨rename p.name, p.variance, p.bound.map (Ty.subst view)⟩

theorem strip_marked : ∀ c ∈ capitalLetters, visibleLetters.stripFunctionMark ("F_" ++ c) = c := by
  decide

/-- A letter is new to names if it is with the mark of a type parameter of a function. -/
theorem marked_notMem {c : String} {names : List String} (hc : c ∈ capitalLetters)
    (hfree : c ∉ names.map visibleLetters.stripFunctionMark) : "F_" ++ c ∉ names := fun hmem =>
  hfree (List.mem_map.mpr ⟨_, hmem, strip_marked c hc⟩)

/-- The names that type parameters get when those that clash are given letters. -/
def relettered (visible : List String) (letter : String → String) (n : String) : String :=
  if n ∈ visible then "F_" ++ letter n else n

/-- **New letters are one renaming**, if no bound of a type parameter that gets one mentions another. -/
theorem Subst.Relettered.renames (h : Relettered m m (clashing visible ps) taken letter view)
    (hview : ∀ p ∈ ps, m.lookup p.name = none)
    (hclash : ∀ p ∈ clashing visible ps, ∀ b ∈ p.bound, ∀ q ∈ clashing visible ps, ¬b.Mentions q.name) :
    Renames m ps (relettered visible letter) view := by
  have hother : ∀ n, (∀ q ∈ clashing visible ps, q.name ≠ n) → view.lookup n = m.lookup n := fun n hn =>
    h.other n fun hmem => by
      obtain ⟨q, hq, heq⟩ := List.mem_map.mp hmem
      exact hn q hq heq
  refine ⟨fun n hn => hother n ?_, fun p hp => ?_⟩
  · rintro q hq rfl
    exact hn (List.mem_map_of_mem (mem_clashing.mp hq).1)
  · by_cases hvisible : p.name ∈ visible
    · have hp' := mem_clashing.mpr ⟨hp, hvisible⟩
      -- The bound is seen through `m`, which is the view on what it mentions.
      have hbound : p.bound.map (Ty.subst m) = p.bound.map (Ty.subst view) := by
        refine Option.map_congr fun b hb => ?_
        refine (Ty.subst_congr fun q hq => hother _ fun r hr heq => ?_).symm
        exact hclash p hp' b hb r hr ⟨q, hq, heq.symm⟩
      rw [Ty.subst_param_of_some (h.renamed p hp'), relettered, if_pos hvisible, hbound]
    · have hlookup : view.lookup p.name = none := by
        refine (hother _ fun q hq heq => hvisible ?_).trans (hview p hp)
        exact heq ▸ (mem_clashing.mp hq).2
      rw [Ty.subst_param_of_none hlookup, relettered, if_neg hvisible]

/-- No two type parameters get one name, and none a name that is visible. -/
theorem Subst.Relettered.names (hnodup : (ps.map (·.name)).Nodup)
    (h : Relettered m m (clashing visible ps)
      ((visible ++ ps.map (·.name)).map visibleLetters.stripFunctionMark) letter view) :
    (ps.map fun p => relettered visible letter p.name).Nodup ∧
      ∀ p ∈ ps, relettered visible letter p.name ∉ visible := by
  have hnew : ∀ p ∈ ps, p.name ∈ visible → relettered visible letter p.name = "F_" ++ letter p.name ∧
      "F_" ++ letter p.name ∉ visible ++ ps.map (·.name) :=
    fun p hp hvisible => by
      obtain ⟨hcapital, hfree⟩ := h.fresh p (mem_clashing.mpr ⟨hp, hvisible⟩)
      exact ⟨if_pos hvisible, marked_notMem hcapital hfree⟩
  have hold : ∀ p ∈ ps, p.name ∉ visible → relettered visible letter p.name = p.name := fun p _ hvisible =>
    if_neg hvisible
  have hfresh : ∀ p ∈ ps, p.name ∈ visible → ∀ q ∈ ps, relettered visible letter p.name ≠ q.name :=
    fun p hp hvisible q hq heq => (hnew p hp hvisible).2 <| List.mem_append_right _ <|
      List.mem_map.mpr ⟨q, hq, heq.symm.trans (hnew p hp hvisible).1⟩
  refine ⟨(List.nodup_map_iff_inj_on hnodup.of_map).mpr fun p hp q hq heq => ?_, fun p hp => ?_⟩
  · by_cases hp' : p.name ∈ visible <;> by_cases hq' : q.name ∈ visible
    · rw [(hnew p hp hp').1, (hnew q hq hq').1, String.append_right_inj] at heq
      exact List.inj_on_of_nodup_map h.distinct (mem_clashing.mpr ⟨hp, hp'⟩) (mem_clashing.mpr ⟨hq, hq'⟩) heq
    · exact absurd (heq.trans (hold q hq hq')) (hfresh p hp hp' q hq)
    · exact absurd (heq.symm.trans (hold p hp hp')) (hfresh q hq hq' p hp)
    · rw [hold p hp hp', hold q hq hq'] at heq
      exact List.inj_on_of_nodup_map hnodup hp hq heq
  · by_cases hp' : p.name ∈ visible
    · obtain ⟨heq, hnotMem⟩ := hnew p hp hp'
      exact heq ▸ fun hmem => hnotMem (List.mem_append_left _ hmem)
    · rw [hold p hp hp']
      exact hp'

/-! ## The overriding function -/

/-- The signature of a function. -/
def FuncDecl.signature (f : FuncDecl) : Signature := ⟨f.typeParams, f.params, f.ret⟩

/-- The function can be overridden in a class in which the names are visible and that views it through `m`. -/
structure FuncDecl.Renamable (f : FuncDecl) (m : Subst) (visible : List String) : Prop where
  coherent : f.signature.Coherent
  uses : f.signature.UsesAll
  unbound : ∀ p ∈ f.typeParams, m.lookup p.name = none
  /-- What the view replaces depends on no type parameter of the function. -/
  viewed : ∀ t ∈ f.ret :: f.paramTypes, ∀ q, t.Occurs q → m.lookup q.name ≠ none → ∀ b ∈ q.bound,
    ∀ p ∈ f.typeParams, ¬b.Mentions p.name
  /-- There are enough letters. -/
  room : (clashing visible f.typeParams).length ≤
    (freeLetters ((visible ++ f.typeParams.map (·.name)).map visibleLetters.stripFunctionMark)).length
  /-- No bound of a type parameter that gets a letter mentions another one. -/
  separate : ∀ p ∈ clashing visible f.typeParams, ∀ b ∈ p.bound, ∀ q ∈ clashing visible f.typeParams,
    ¬b.Mentions q.name

/-- What is mentioned is mentioned under its new name. -/
theorem Subst.Renames.mentions (h : m.Renames ps rename view)
    (hcoherent : ∀ q, t.Occurs q → ∀ p ∈ ps, q.name = p.name → q.bound = p.bound)
    (hscoped : ∀ q, t.Occurs q → m.lookup q.name ≠ none → ∀ b ∈ q.bound, ∀ p ∈ ps, ¬b.Mentions p.name)
    (hp : p ∈ ps) (hq : t.Occurs q) (hname : q.name = p.name) : (t.subst view).Mentions (rename p.name) := by
  induction hq with
  | here =>
    have hparam := h.param p hp
    cases hlookup : view.lookup q.name with
    | none =>
      rw [Ty.subst_param_of_none (hname ▸ hlookup)] at hparam
      injection hparam with hparam
      injection hparam with hrename
      rw [Ty.subst_param_of_none hlookup]
      exact ⟨_, .here, hname.trans hrename⟩
    | some u =>
      rw [Ty.subst_param_of_some (hname ▸ hlookup)] at hparam
      rw [Ty.subst_param_of_some hlookup, hparam]
      exact ⟨_, .here, rfl⟩
  | @bound r b hb hocc ih =>
    obtain ⟨q', hq', hname'⟩ := ih (fun q hq => hcoherent q (.bound hb hq)) fun q hq => hscoped q (.bound hb hq)
    have hkept : (b.subst view) ∈ r.bound.map (Ty.subst view) := by rw [hb]; rfl
    cases hlookup : view.lookup r.name with
    | none =>
      rw [Ty.subst_param_of_none hlookup]
      exact ⟨q', .bound hkept hq', hname'⟩
    | some u =>
      by_cases hr : r.name ∈ ps.map (·.name)
      · obtain ⟨p₀, hp₀, heq⟩ := List.mem_map.mp hr
        rw [hcoherent r .here p₀ hp₀ heq.symm] at hkept
        have hparam := h.param p₀ hp₀
        rw [Ty.subst_param_of_some (heq.symm ▸ hlookup)] at hparam
        rw [Ty.subst_param_of_some hlookup, hparam]
        exact ⟨q', .bound hkept hq', hname'⟩
      -- What the class binds depends on no type parameter of the function.
      · rw [h.other _ hr] at hlookup
        exact absurd ⟨q, hocc, hname⟩ (hscoped r .here (by simp [hlookup]) b hb p hp)
  | @wildcard v b _ ih =>
    obtain ⟨q', hq', hname'⟩ := ih (fun q hq => hcoherent q (.wildcard hq)) fun q hq => hscoped q (.wildcard hq)
    exact ⟨q', .wildcard hq', hname'⟩
  | @arg c args a ha _ ih =>
    obtain ⟨q', hq', hname'⟩ := ih (fun q hq => hcoherent q (.arg ha hq)) fun q hq => hscoped q (.arg ha hq)
    rw [Ty.subst, Ty.substList_eq]
    exact ⟨q', .arg (List.mem_map_of_mem ha) hq', hname'⟩

/-- A renamed signature mentions all of its type parameters, if it did so before. -/
theorem FuncDecl.Renamable.usesAll (hf : f.Renamable m visible) (h : m.Renames f.typeParams rename view) :
    (f.through view).UsesAll := by
  intro p' hp'
  obtain ⟨p, hp, rfl⟩ := List.mem_map.mp hp'
  obtain ⟨t, ht, q, hq, hname⟩ := hf.uses p hp
  have hmentions := h.mentions (hf.coherent.declared t ht) (hf.viewed t ht) hp hq hname
  have hrename : (p.subst view).name = rename p.name := by rw [TypeParam.subst, h.param p hp]
  refine ⟨t.subst view, ?_, hrename ▸ hmentions⟩
  rcases List.mem_cons.mp ht with rfl | ht
  · exact List.mem_cons_self
  · rw [FuncDecl.paramTypes_through]
    exact List.mem_cons_of_mem _ (List.mem_map_of_mem ht)

/-- Any two sessions are related, where only what a run gives matters. -/
def Session.Anyhow (_ _ : Session) : Prop := True

instance : IsPreorder Session Session.Anyhow where
  refl _ := trivial
  trans _ _ _ _ _ := trivial

/-- A step of which nothing is asked. -/
theorem Gen.yields_anyhow {α : Type} (x : Gen α) (s : Session) : x.Yields Anyhow s fun _ _ => True :=
  ⟨trivial, fun _ _ => trivial⟩

/-- A function that is registered keeps its signature. -/
theorem Gen.declareFunc_signature (parent ns : Namespace) (hasBody : Bool) (f : FuncDecl) (s : Session) :
    (declareFunc e parent ns hasBody f).Yields Anyhow s fun g _ => g.name = f.name ∧ g.signature = f.signature := by
  unfold declareFunc
  refine (yields_anyhow _ _).bind fun _ _ _ _ => (yields_anyhow _ _).bind fun _ _ _ _ => ?_
  split
  · exact (yields_anyhow _ _).bind fun _ _ _ _ => (yields_anyhow _ _).bind fun _ _ _ _ => .pure ⟨rfl, rfl⟩
  · exact .pure ⟨rfl, rfl⟩

/-- **A function that is asked for with a signature that mentions all of its type parameters** has it. -/
theorem Gen.genFuncDecl_given {spec : FuncSpec} {sig : Signature} (hname : spec.name = some n)
    (hns : spec.ns = some ns) (hkind : FuncKind.inside ns ≠ .nested)
    (htypeParams : spec.typeParams = some sig.typeParams) (hparams : spec.params = some sig.params)
    (hret : spec.ret = some sig.ret) (huses : sig.UsesAll) :
    (genFuncDecl e spec).Yields Anyhow s fun g _ => g.name = n ∧ g.signature = sig := by
  have htypes : ∀ s, (genFuncTypeParams (ns.child n) (.inside ns) spec.typeParams).Yields Anyhow s
      fun ps _ => ps = sig.typeParams := by
    intro s
    rw [htypeParams, genFuncTypeParams]
    · exact (yields_anyhow _ _).bind fun _ _ _ _ => .pure rfl
    · exact hkind
  have hprune : ∀ s, (pruneTypeParams (ns.child n) sig).Yields Anyhow s fun sig' _ => sig' = sig := by
    intro s
    refine .get ?_
    rw [if_pos (isEmpty_unusedTypeParams huses)]
    exact .pure rfl
  have hinside : ∀ s, (genFuncInside e spec ns n).Yields Anyhow s fun g _ => g.name = n ∧ g.signature = sig := by
    intro s
    unfold genFuncInside
    refine .get ((yields_anyhow _ _).bind fun _ _ _ _ => (htypes _).bind fun ps _ _ hps => ?_)
    rw [funcParams, hparams]
    refine .pass ?_
    rw [funcReturnType, hret]
    refine .pass ((yields_anyhow _ _).bind fun _ _ _ _ => ?_)
    subst hps
    exact (hprune _).bind fun sig' _ _ hsig => by subst hsig; exact declareFunc_signature ..
  rw [genFuncDecl_eq, funcName, hname]
  refine .pass (.get ?_)
  rw [hns]
  exact .inFrame (hinside _) (fun _ _ => trivial) fun g _ _ h => h

/-- **An overriding function is renamed as a whole.** Type parameters whose names are visible in the class
get others, no two the same and none that is visible, and the signature is what the inherited function has
under the view with its type parameters renamed: all types of parameters, the result type and all bounds. -/
theorem overrideFunc_renames {classIsFinal : Bool} (hkind : FuncKind.inside ns ≠ .nested)
    (hvisible : visible = (s.context.types ns true).map (·.name)) (h : f.Renamable m visible)
    (hrun : (overrideFunc e ns m classIsFinal f).runIn s = (.ok g, s')) :
    ∃ rename view, m.Renames f.typeParams rename view ∧ (f.typeParams.map fun p => rename p.name).Nodup ∧
      (∀ p ∈ f.typeParams, rename p.name ∉ visible) ∧ g.name = f.name ∧
      g.typeParams = f.typeParams.map (fun p => ⟨rename p.name, p.variance, p.bound.map (Ty.subst view)⟩) ∧
      g.params = f.params.map (fun p => ⟨p.name, p.ty.subst view, none⟩) ∧ g.ret = f.ret.subst view := by
  have hyields : (overrideFunc e ns m classIsFinal f).Yields Anyhow s fun g _ =>
      ∃ letter view, Subst.Relettered m m (clashing visible f.typeParams)
        ((visible ++ f.typeParams.map (·.name)).map visibleLetters.stripFunctionMark) letter view ∧
        g.name = f.name ∧ g.signature = f.through view := by
    refine .get ?_
    rw [← hvisible]
    refine ((renameClashing_yields h.coherent.distinct h.room).weaken fun _ _ => trivial).bind
      fun view _ _ hletter => ?_
    obtain ⟨letter, hview⟩ := hletter
    have hgiven : ∀ s, (genFuncDecl e (overrideSpec ns view classIsFinal f)).Yields Anyhow s fun g _ =>
        g.name = f.name ∧ g.signature = f.through view := fun s =>
      genFuncDecl_given rfl rfl hkind rfl rfl rfl (h.usesAll (hview.renames h.unbound h.separate))
    exact (hgiven _).mono fun g _ _ hg => ⟨letter, view, hview, hg⟩
  obtain ⟨letter, view, hview, hname, hsignature⟩ := (hyields.of_run hrun).2 g rfl
  have hrenames := hview.renames h.unbound h.separate
  obtain ⟨hdistinct, hhidden⟩ := hview.names h.coherent.distinct
  refine ⟨_, view, hrenames, hdistinct, hhidden, hname, ?_, congrArg Signature.params hsignature,
    congrArg Signature.ret hsignature⟩
  refine (congrArg Signature.typeParams hsignature).trans (List.map_congr_left fun p hp => ?_)
  rw [TypeParam.subst, hrenames.param p hp]

/-- Where both of two type parameters clash, and the first is bounded by the second, the second gets another
name, and the bound of the first goes on to mention the old one. -/
example :
    let b := TypeParam.plain "F_B"
    let a : TypeParam := ⟨"F_A", .invariant, some (.param b)⟩
    (renameClashing ∅ ["F_A", "F_B"] [a, b] ["A", "B"] ∅).Yields OnlyDraws s fun view _ => ∃ c d, d ≠ "F_B" ∧
      (Ty.param a).subst view = .param ⟨c, .invariant, some (.param b)⟩ ∧
      (Ty.param b).subst view = .param (.plain d) := by
  intro b a
  refine (renameClashing_yields (by decide) (by decide)).mono fun view _ _ ⟨letter, h⟩ => ?_
  have ha : a ∈ clashing ["F_A", "F_B"] [a, b] := mem_clashing.mpr ⟨by simp, by simp [a]⟩
  have hb : b ∈ clashing ["F_A", "F_B"] [a, b] := mem_clashing.mpr ⟨by simp, by simp [b, TypeParam.plain]⟩
  refine ⟨_, "F_" ++ letter "F_B", fun heq => ?_, Ty.subst_param_of_some (h.renamed a ha),
    Ty.subst_param_of_some (h.renamed b hb)⟩
  have hletter : letter "F_B" = "B" := (String.append_right_inj "F_").mp heq
  exact absurd (h.fresh b hb).2 (by simp [b, TypeParam.plain, hletter])

/-- A function of one type parameter that clashes and of another one that is bounded by it can be overridden. -/
example :
    let a := TypeParam.plain "F_A"
    let b : TypeParam := ⟨"F_B", .invariant, some (.param a)⟩
    FuncDecl.Renamable ⟨"pack", [⟨"x", .param b, none⟩], .param a, none, .method, [a, b], false, false⟩ ∅
      ["F_A"] := by
  intro a b
  refine ⟨by decide +kernel, ?_, fun _ _ => rfl, fun _ _ _ _ h => absurd rfl h, by decide, ?_⟩
  · rintro p hp
    rcases List.mem_pair.mp hp with heq | heq
    · exact ⟨.param a, List.mem_cons_self, a, .here, heq ▸ rfl⟩
    · exact ⟨.param b, List.mem_cons_of_mem _ List.mem_cons_self, b, .here, heq ▸ rfl⟩
  · rintro p hp c hc
    obtain ⟨hp, hname⟩ := mem_clashing.mp hp
    rcases List.mem_pair.mp hp with rfl | rfl
    · cases hc
    · simp [b] at hname

end ProgramGen

import ProgramGen.Proofs.Generation.Choice

/-!
# Expressions that are asked for

What is asked of the entries of the generator: the answer to a request has a type that has values if
and only if the requested type has, and it is disciplined in the current scope. A request for a value
asks for no variables to be assigned there; a body assigns those of its own scope besides.

The entries are served from some depth on: the parts of the generator are judged on the condition
that they are served one level deeper.
-/

namespace ProgramGen

open Session

variable {s s' s₀ : Session} {t u : Ty} {a b : Expr} {e : Engine} {o : ExprOpts} {P P' : Permit}
variable {T T' : Demand} {ns m : Namespace} {d : Decl} {f : Frame} {n : String} {k j : Nat}

namespace Session

/-! ## Answers -/

/-- What the answer to a request asks for: to assign local variables only if no value is asked for. -/
def Targets (s : Session) (t : Ty) : Demand := if t.isVoid then s.statements else noTargets

/-- An answer to a request that was made at the depth `d`. -/
structure Answers (s : Session) (d : Nat) (t : Ty) (a : Expr) : Prop where
  ty : ∀ u ∈ a.ty?, u.Requested ∧ u.isVoid = t.isVoid
  stands : s.Stands (s.Targets t) (exprDepth s.maxDepth d t) a

/-- The expression can be an operand of an answer to a request that was made at the depth `d`. -/
def Operand (s : Session) (d : Nat) (t : Ty) (a : Expr) : Prop :=
  s.Stands noTargets (exprDepth s.maxDepth d t - 1) a

/-- A body for the current scope, of a function or closure with the result `ret`. -/
structure BodyFits (s : Session) (ret : Ty) (a : Expr) : Prop where
  fits : s.FitsHere s.bodies a
  decls : ret.isVoid → ∀ b, a = .block b → ∀ d, Stmt.decl d ∈ b.stmts → d ∈ s.localDecls ∧ s.DeclFits d
  depth : a.depth ≤ bodyDepth s.maxDepth s.frame.depth
  results : s.language = .java → ∀ r ∈ a.results ret, r.isValue

theorem targets_mono (hl : s.Leads s') (hframe : s'.frame = s.frame) : (s.Targets t).Below (s'.Targets t) := by
  unfold Targets
  split
  · exact statements_mono hl hframe
  · exact .refl _

/-- What an answer reads may be declared in the scope itself. -/
theorem targets_locals : (s.Targets t).locals := by
  unfold Targets
  split <;> trivial

theorem FitsHere.targets (h : s.FitsHere T a) (hT : T.Below T') : s.FitsHere T' a := Fits.targets h hT

namespace Stands

theorem mono (h : s.Stands T k a) (hl : s.Leads s') (hframe : s'.frame = s.frame)
    (hT : T.Below T') : s'.Stands T' k a :=
  ⟨h.fits.mono hl hframe hT, h.depth, hl.language ▸ h.value⟩

theorem step (h : s.Stands noTargets k a) (hstep : s.Step P s') : s'.Stands noTargets k a :=
  h.mono hstep.toLeads hstep.frame (.refl _)

theorem any (h : s.Stands noTargets k a) (hT : T.locals := by exact trivial) : s.Stands T k a :=
  ⟨h.fits.targets (.noTargets hT), h.depth, h.value⟩

theorem deeper (h : s.Stands T k a) (hk : k ≤ j) : s.Stands T j a := ⟨h.fits, h.depth.trans hk, h.value⟩

/-- A flat expression stands one level deeper than its parts. -/
theorem of_children (hflat : a.isFlat) (htypes : ∀ u ∈ a.types, u.Requested)
    (haccess : ∀ s', s.Leads s' → ∀ v,
      s'.Admits s.frame.ns s.frame.captureRoot (fun n => s.Shared s.frame.ns n ∨ T.targets n) v →
      a.Accesses s'.context v)
    (hconstruct : ∀ s', s.Leads s' → a.Constructs s'.context s'.language)
    (h : ∀ b ∈ a.children, s.Stands T k b)
    (hread : ∀ s', s.Leads s' → ∀ v, s'.Shows (s.InSight s.frame.ns T.locals) v → a.Reads s'.context v := by
      intros; trivial) : s.Stands T (k + 1) a where
  fits := Fits.of_children hflat htypes (fun hl b hb => (h b hb).value hl) haccess hconstruct
    (fun b hb => (h b hb).fits) hread
  depth := Expr.depth_le_succ fun b hb => (h b hb).depth
  value _ := Expr.isValue_of_isFlat hflat

/-- A flat expression that accesses and constructs nothing itself. -/
theorem quiet (hflat : a.isFlat) (htypes : ∀ u ∈ a.types, u.Requested) (haccess : ∀ c v, a.Accesses c v)
    (hconstruct : ∀ c l, a.Constructs c l) (h : ∀ b ∈ a.children, s.Stands T k b)
    (hread : ∀ c v, a.Reads c v := by intros; trivial) : s.Stands T (k + 1) a :=
  .of_children hflat htypes (fun s' _ v _ => haccess s'.context v) (fun s' _ => hconstruct s'.context s'.language) h
    fun s' _ v _ => hread s'.context v

theorem unresolved (ht : t.Requested) : s.Stands T 1 (.unresolved t) :=
  .quiet rfl (List.forall_mem_singleton.mpr ht) (fun _ _ => trivial) (fun _ _ => trivial) nofun

/-- What can be read. -/
theorem var (hs : s.Sound) (hm : m ∈ s.frame.ns.lineage) (hd : d ∈ s.decls m) (hkind : d.kind = .var)
    (hread : s.canRead m d) (ht : t.Plain) : s.Stands noTargets 1 (.var d.name t) :=
  .of_children rfl (List.forall_mem_singleton.mpr (.inl ht)) (fun _ hl _ hv => hs.access_ne_outer hd hread hl hv)
    (fun _ _ => trivial) nofun fun _ _ _ hv => .inr (hv _ (inSight_of_mem hm hd hkind))

theorem readable (hs : s.Sound) (hd : d ∈ s.readableVars) (ht : t.Plain) : s.Stands noTargets 1 (.var d.name t) := by
  obtain ⟨m, hm, hdecl, hkind, hread⟩ := Sound.exists_of_mem_readableVars hd
  exact var hs hm hdecl hkind hread ht

end Stands

theorem Operand.mono {i : Nat} (h : s.Operand i t a) (hstep : s.Step P s') : s'.Operand i t a := by
  unfold Operand
  rw [hstep.maxDepth_eq]
  exact Stands.step h hstep

namespace Answers

variable {i : Nat}

theorem mono (h : s.Answers i t a) (hstep : s.Step P s') : s'.Answers i t a := by
  refine ⟨h.ty, ?_⟩
  rw [hstep.maxDepth_eq]
  exact h.stands.mono hstep.toLeads hstep.frame (targets_mono hstep.toLeads hstep.frame)

/-- The answer to a request for a value. -/
theorem value (h : s.Answers i t a) (ht : t.isVoid = false) :
    s.Stands noTargets (exprDepth s.maxDepth i t) a := by
  have := h.stands
  unfold Targets at this
  rwa [ht, if_neg (by simp)] at this

/-- What assigns nothing and is of a plain type answers a request for a value. -/
theorem of_value (h : s.Stands noTargets (exprDepth s.maxDepth i t) a) (hty : a.ty? = some u)
    (hu : u.Plain) (ht : t.isVoid = false) : s.Answers i t a := by
  refine ⟨fun v hv => ?_, h.any targets_locals⟩
  rw [hty] at hv
  cases hv
  exact ⟨.inl hu, hu.isVoid.trans ht.symm⟩

/-- The answer to another request that leaves no more room. -/
theorem of_request (h : s.Answers i u a) (htu : u.isVoid = t.isVoid)
    (hdepth : exprDepth s.maxDepth i u ≤ exprDepth s.maxDepth i t) : s.Answers i t a := by
  refine ⟨fun v hv => ?_, ?_⟩
  · rw [← htu]
    exact h.ty v hv
  · have := h.stands.deeper hdepth
    unfold Targets at this ⊢
    rwa [← htu]

theorem unresolved (ht : t.Requested) : s.Answers i t (.unresolved t) := by
  refine ⟨fun u hu => ?_, (Stands.unresolved ht).deeper exprDepth_pos⟩
  cases hu
  exact ⟨ht, rfl⟩

/-- An operand of an expression that is asked for less deep. -/
theorem operand {j : Nat} (h : s.Answers j u a) (hu : u.isVoid = false) (hi : i ≤ 2 * s.maxDepth)
    (hj : i < j) : s.Operand i t a :=
  (h.value hu).deeper (by have := exprDepth_below (u := u) (t := t) hi hj; omega)

/-- A flat expression answers a request if its parts are operands of an answer. -/
theorem of_operands (hty : ∀ u ∈ a.ty?, u.Requested ∧ u.isVoid = t.isVoid) (hflat : a.isFlat)
    (htypes : ∀ v ∈ a.types, v.Requested)
    (haccess : ∀ s', s.Leads s' → ∀ v,
      s'.Admits s.frame.ns s.frame.captureRoot (fun n => s.Shared s.frame.ns n ∨ (s.Targets t).targets n) v →
      a.Accesses s'.context v)
    (hconstruct : ∀ s', s.Leads s' → a.Constructs s'.context s'.language)
    (h : ∀ b ∈ a.children, s.Operand i t b)
    (hread : ∀ s', s.Leads s' → ∀ v, s'.Shows (s.InSight s.frame.ns True) v → a.Reads s'.context v := by
      intros; trivial) : s.Answers i t a := by
  refine ⟨hty, (Stands.of_children hflat htypes haccess hconstruct (fun b hb => (h b hb).any targets_locals)
    fun s' hl v hv => hread s' hl v (hv.mono fun _ hn => hn.mono fun _ => targets_locals)).deeper ?_⟩
  have := exprDepth_pos (L := s.maxDepth) (d := i) (t := t)
  omega

/-- A flat expression of a plain type that accesses and constructs nothing itself. -/
theorem node (ht : t.isVoid = false) (hty : a.ty? = some u) (hu : u.Plain) (hflat : a.isFlat)
    (htypes : ∀ v ∈ a.types, v.Requested) (haccess : ∀ c v, a.Accesses c v)
    (hconstruct : ∀ c l, a.Constructs c l) (h : ∀ b ∈ a.children, s.Operand i t b)
    (hread : ∀ c v, a.Reads c v := by intros; trivial) : s.Answers i t a := by
  refine .of_operands (fun v hv => ?_) hflat htypes (fun _ _ _ _ => haccess _ _) (fun _ _ => hconstruct _ _) h
    fun _ _ _ _ => hread _ _
  rw [hty] at hv
  cases hv
  exact ⟨.inl hu, hu.isVoid.trans ht.symm⟩

end Answers

/-! ## Variables that are read -/

theorem Sound.plain_varType (hs : s.Sound) (hd : d ∈ s.decls m) (ht : d.varType? = some t) : t.Plain := by
  have := hs.types m d hd
  cases d <;> cases ht <;> exact this

theorem Sound.plain_readable (hs : s.Sound) (hd : d ∈ s.readableVars) (ht : d.varType? = some t) :
    t.Plain := by
  obtain ⟨m, -, hdecl, -⟩ := Sound.exists_of_mem_readableVars hd
  exact hs.plain_varType hdecl ht

theorem canRead_of_isFinal {v : VarDecl} (h : v.isFinal) : s.canRead ns (.var v) := by
  unfold canRead
  split
  · rename_i heq
    cases heq
    simp [h]
  · rfl

/-- A variable of the current scope can be read in a body. -/
theorem Sound.canRead_here (hs : s.Sound) (hbody : s.frame.inFuncBody) : s.canRead s.frame.ns d := by
  unfold canRead
  split
  · rename_i root v hroot
    have := (hs.body hbody).2 root hroot
    simp [this]
  · rfl

/-! ## Frames -/

theorem targets_withFrame {f : Frame} (h : SameScope f s.frame) :
    ({ s with frame := f } : Session).Targets t = s.Targets t := by
  unfold Targets statements LocalTargets
  rw [← h.ns, ← h.root]
  rfl

/-- What stands deeper down in a scope stands in it. -/
theorem Stands.of_withFrame (h : ({ s with frame := f } : Session).Stands T k a) (hf : SameScope f s.frame) :
    s.Stands T k a where
  fits := by
    unfold FitsHere
    rw [← hf.ns, ← hf.root]
    exact fits_withFrame.mp h.fits
  depth := h.depth
  value := h.value

theorem Answers.of_withFrame {i : Nat} (h : ({ s with frame := f } : Session).Answers i t a)
    (hf : SameScope f s.frame) : s.Answers i t a :=
  ⟨h.ty, targets_withFrame hf ▸ h.stands.of_withFrame hf⟩

/-- An answer that was made some levels deeper. -/
theorem Answers.of_nested {i : Nat} {f : Frame} (h : s'.Answers i t a)
    (hf : s'.frame = { f with depth := f.depth + k }) : Answers { s' with frame := f } i t a := by
  refine Answers.of_withFrame (s := { s' with frame := f }) (f := s'.frame) h ?_
  rw [hf]
  exact ⟨rfl, rfl, rfl, id, Nat.le_add_right ..⟩

end Session

/-! ## Permits -/

/-- The permit allows to add to the scope; to the top level, every one does. -/
def Permit.Covers (P : Permit) (ns : Namespace) : Prop := ns = .global ∨ P.scopes ns

theorem Permit.covers_within (ns : Namespace) : (Permit.within ns).Covers ns := .inr rfl

theorem Session.allows_within_of_covers (h : P.Covers ns) : s.Allows (.within ns) P where
  scopes m _ hm hP := by
    obtain rfl : m = ns := hP
    exact h.resolve_left hm
  making _ _ h := h.elim
  names _ _ h := h.elim

/-! ## Service -/

/-- The engine answers requests for expressions at all depths from `d` on, where `L` is the limit of
depth. -/
structure Engine.ServesExprs (e : Engine) (L d : Nat) : Prop where
  expr : ∀ {s : Session} {t : Ty} {o : ExprOpts} {P : Permit}, s.Sound →
    s.config.limits.maxDepth = L → d ≤ s.frame.depth → t.Requested → P.Covers s.frame.ns →
    (e.expr t o).Ensures (Step P) s fun a s' => s'.Answers s.frame.depth t a

/-- It gives bodies besides. -/
structure Engine.Serves (e : Engine) (L d : Nat) : Prop extends e.ServesExprs L d where
  body : ∀ {s : Session} {t : Ty} {P : Permit}, s.Sound → s.config.limits.maxDepth = L →
    d ≤ s.frame.depth → t.Requested → s.frame.ns ≠ .global → s.HasPlace →
    (∀ d ∈ s.localDecls, s.DeclFits d) → P.Covers s.frame.ns →
    (e.body t).Ensures (Step P) s fun a s' => s'.BodyFits t a

/-- Ground types at all depths from `d` on. -/
def Engine.ServesGround (e : Engine) (L d : Nat) : Prop :=
  ∀ {s : Session} {t : Ty} {o : ExprOpts} {P : Permit}, s.Sound → s.config.limits.maxDepth = L →
    d ≤ s.frame.depth → t.Plain → t.isGround → P.Covers s.frame.ns →
    (e.expr t o).Ensures (Step P) s fun a s' => s'.Answers s.frame.depth t a

theorem Engine.Serves.ground {L d : Nat} (h : e.Serves L d) : e.ServesGround L d :=
  fun hs hL hd ht _ hP => h.expr hs hL hd (.inl ht) hP

namespace Session

/-- The engine serves `k` levels below the session. -/
def Served (s : Session) (e : Engine) (k : Nat) : Prop :=
  e.Serves s.config.limits.maxDepth (s.frame.depth + k)

/-- The engine answers requests for expressions `k` levels below the session. -/
def ServedExprs (s : Session) (e : Engine) (k : Nat) : Prop :=
  e.ServesExprs s.config.limits.maxDepth (s.frame.depth + k)

/-- The engine serves ground types `k` levels below the session. -/
def ServedGround (s : Session) (e : Engine) (k : Nat) : Prop :=
  e.ServesGround s.config.limits.maxDepth (s.frame.depth + k)

theorem Served.step (h : s.Served e k) (hstep : s.Step P s') : s'.Served e k := by
  unfold Served
  rw [hstep.config, hstep.frame]
  exact h

theorem ServedExprs.step (h : s.ServedExprs e k) (hstep : s.Step P s') : s'.ServedExprs e k := by
  unfold ServedExprs
  rw [hstep.config, hstep.frame]
  exact h

theorem ServedGround.step (h : s.ServedGround e k) (hstep : s.Step P s') : s'.ServedGround e k := by
  unfold ServedGround
  rw [hstep.config, hstep.frame]
  exact h

theorem Served.ground (h : s.Served e k) : s.ServedGround e k := Engine.Serves.ground h

theorem Served.exprs (h : s.Served e k) : s.ServedExprs e k := Engine.Serves.toServesExprs h

/-- In a frame deeper down. -/
theorem Served.withFrame (h : s.Served e k) (hf : s.frame.depth + k ≤ f.depth + j) :
    Served { s with frame := f } e j :=
  ⟨⟨fun hs hL hd => h.expr hs hL (hf.trans hd)⟩, fun hs hL hd => h.body hs hL (hf.trans hd)⟩

theorem ServedExprs.withFrame (h : s.ServedExprs e k) (hf : s.frame.depth + k ≤ f.depth + j) :
    ServedExprs { s with frame := f } e j :=
  ⟨fun hs hL hd => h.expr hs hL (hf.trans hd)⟩

theorem ServedGround.withFrame (h : s.ServedGround e k) (hf : s.frame.depth + k ≤ f.depth + j) :
    ServedGround { s with frame := f } e j :=
  fun hs hL hd => h hs hL (hf.trans hd)

theorem ServedExprs.deeper (h : s.ServedExprs e k) (hk : k ≤ j) : s.ServedExprs e j :=
  ⟨fun hs hL hd => h.expr hs hL ((Nat.add_le_add_left hk _).trans hd)⟩

theorem ServedExprs.answer (h : s.ServedExprs e 0) (hs : s.Sound) (ht : t.Requested)
    (hP : P.Covers s.frame.ns) :
    (e.expr t o).Ensures (Step P) s fun a s' => s'.Answers s.frame.depth t a :=
  Engine.ServesExprs.expr h hs rfl le_rfl ht hP

theorem Served.expr (h : s.Served e 0) (hs : s.Sound) (ht : t.Requested) (hP : P.Covers s.frame.ns) :
    (e.expr t o).Ensures (Step P) s fun a s' => s'.Answers s.frame.depth t a :=
  h.exprs.answer hs ht hP

theorem ServedGround.expr (h : s.ServedGround e 0) (hs : s.Sound) (ht : t.Plain) (hground : t.isGround)
    (hP : P.Covers s.frame.ns) :
    (e.expr t o).Ensures (Step P) s fun a s' => s'.Answers s.frame.depth t a :=
  h hs rfl le_rfl ht hground hP

theorem Served.body (h : s.Served e 0) (hs : s.Sound) (ht : t.Requested) (hns : s.frame.ns ≠ .global)
    (hplace : s.HasPlace) (hdecls : ∀ d ∈ s.localDecls, s.DeclFits d)
    (hP : P.Covers s.frame.ns) :
    (e.body t).Ensures (Step P) s fun a s' => s'.BodyFits t a :=
  Engine.Serves.body h hs rfl le_rfl ht hns hplace hdecls hP

end Session

namespace Gen

variable {α β : Type} {x : Gen α} {Q : α → Session → Prop} {change : Frame → Frame}

/-- A computation some levels deeper. -/
theorem nested_ensures (hs : s.Sound)
    (h : ∀ s₀, s₀ = { s with frame := { s.frame with depth := s.frame.depth + k } } → s₀.Sound →
      x.Ensures (Step P) s₀ fun a s' => Q a { s' with frame := s.frame }) :
    (nested k x).Ensures (Step P) s Q :=
  .inSameScope hs ⟨rfl, rfl, rfl, id, Nat.le_add_right ..⟩ h

/-- **An expression is asked for one level deeper.** -/
theorem nestedExpr_ensures (hs : s.Sound) (he : s.ServedExprs e 1) (ht : t.Requested)
    (hP : P.Covers s.frame.ns) :
    (nested 1 (e.expr t o)).Ensures (Step P) s fun a s' => s'.Answers (s.frame.depth + 1) t a := by
  refine nested_ensures hs fun s₀ heq hs₀ => ?_
  have he₀ : s₀.ServedExprs e 0 := by
    rw [heq]
    exact he.withFrame le_rfl
  refine (he₀.answer hs₀ ht (by rw [heq]; exact hP)).mono fun a s' hstep ha => ?_
  rw [heq] at ha
  exact ha.of_nested (hstep.frame.trans (by rw [heq]))

/-- Expressions for the elements of a list, all asked for one level deeper. -/
theorem nestedExprs_ensures {xs : List α} {g : α → Gen Expr} (ty : α → Ty) (hs : s.Sound)
    (he : s.Served e 1) (hP : P.Covers s.frame.ns)
    (hg : ∀ x ∈ xs, ∀ s₀ : Session, s₀.Sound → s₀.Served e 0 → P.Covers s₀.frame.ns →
      (g x).Ensures (Step P) s₀ fun a s' => s'.Answers s₀.frame.depth (ty x) a) :
    (nested 1 (xs.mapM g)).Ensures (Step P) s fun as s' =>
      List.Forall₂ (fun x a => s'.Answers (s.frame.depth + 1) (ty x) a) xs as := by
  refine nested_ensures hs fun s₀ heq hs₀ => ?_
  have he₀ : s₀.Served e 0 := by
    rw [heq]
    exact he.withFrame le_rfl
  have hP₀ : P.Covers s₀.frame.ns := by rw [heq]; exact hP
  refine (Ensures.mapM (R := Step P) (G := fun x a s' => s'.Answers s₀.frame.depth (ty x) a) (.refl hs₀)
    (fun x hx s' h' => ?_) fun x a s₁ s₂ h ha => ha.mono h).mono fun as s' h' has => ?_
  · rw [← h'.frame]
    exact hg x hx s' h'.sound (he₀.step h') (h'.frame ▸ hP₀)
  · refine has.imp fun x a ha => ?_
    rw [heq] at ha
    exact ha.of_nested (h'.frame.trans (by rw [heq]))

/-- The operands of an answer, all asked for one level deeper. -/
theorem nestedOperands_ensures {xs : List α} {g : α → Gen Expr} (ty : α → Ty) (hs : s.Sound)
    (he : s.Served e 1) (hdepth : s.frame.depth ≤ 2 * s.maxDepth) (hP : P.Covers s.frame.ns)
    (hty : ∀ x ∈ xs, (ty x).Plain)
    (hg : ∀ x ∈ xs, ∀ s₀ : Session, s₀.Sound → s₀.Served e 0 → P.Covers s₀.frame.ns →
      (g x).Ensures (Step P) s₀ fun a s' => s'.Answers s₀.frame.depth (ty x) a) :
    (nested 1 (xs.mapM g)).Ensures (Step P) s fun as s' =>
      as.length = xs.length ∧ ∀ a ∈ as, s'.Operand s.frame.depth t a := by
  refine (nestedExprs_ensures ty hs he hP hg).mono fun as s' hstep has => ⟨has.length_eq.symm, fun a ha => ?_⟩
  obtain ⟨i, hi, rfl⟩ := List.mem_iff_getElem.mp ha
  have hi' : i < xs.length := has.length_eq ▸ hi
  exact ((List.forall₂_iff_get.mp has).2 i hi' hi).operand (hty _ (List.get_mem ..)).isVoid
    (hstep.maxDepth_eq ▸ hdepth) (Nat.lt_succ_self _)

/-! ## Reading -/

/-- A variable that is read in place of a value. -/
theorem answers_assignableReads (hs : s.Sound) (ht : t.isVoid = false) (h : a ∈ s.assignableReads t) :
    s.Answers k t a := by
  obtain ⟨d, hd, h⟩ := List.mem_filterMap.mp h
  split at h
  · rename_i v hv
    obtain ⟨-, h⟩ := Option.ite_none_right_eq_some.mp h
    cases h
    have hplain := hs.plain_readable hd hv
    exact .of_value ((Stands.readable hs hd hplain).deeper exprDepth_pos) rfl hplain ht
  · cases h

theorem answers_exactReads (hs : s.Sound) (h : a ∈ s.exactReads t) : s.Answers k t a := by
  obtain ⟨d, hd, h⟩ := List.mem_filterMap.mp h
  have hread : ∀ (hty : d.varType? = some t), s.Answers k t (.var d.name t) := fun hty =>
    have ht := hs.plain_readable hd hty
    .of_value ((Stands.readable hs hd ht).deeper exprDepth_pos) rfl ht ht.isVoid
  split at h
  · obtain ⟨rfl, h⟩ := Option.ite_none_right_eq_some.mp h
    cases h
    exact hread rfl
  · obtain ⟨rfl, h⟩ := Option.ite_none_right_eq_some.mp h
    cases h
    exact hread rfl
  · cases h

/-- A variable, if one fits; what is asked for instead is an expression at the same depth. -/
theorem genVariable_ensures (hs : s.Sound) (ht : t.isVoid = false)
    (he : ∀ s₁, s.Step P s₁ → (e.expr t { o with excludeVar := true }).Ensures (Step P) s₁
      fun a s' => s'.Answers s.frame.depth t a) :
    (genVariable e t o).Ensures (Step P) s fun a s' => s'.Answers s.frame.depth t a := by
  unfold genVariable
  refine .get ((Ensures.pick.drawStep hs).bind fun chosen s₁ h₁ hpick => ?_)
  obtain ⟨-, -, hchosen⟩ := hpick
  split
  · exact .pure (.refl h₁.sound) ((answers_assignableReads hs ht (hchosen _ rfl)).mono h₁)
  · exact he s₁ h₁

end Gen

end ProgramGen

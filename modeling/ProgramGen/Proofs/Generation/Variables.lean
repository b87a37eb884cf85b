import ProgramGen.Proofs.Generation.Engine
import ProgramGen.Proofs.Run.Stages

/-!
# Declared variables

A variable is declared under a new name, with an initializer that fits around it. To declare one is a
step, and so is to declare one and make it changeable at once: from the draw of its name on, nothing
can tell the two apart.
-/

namespace ProgramGen

namespace Session

variable {s s' s₀ : Session} {P : Permit} {v : VarDecl} {t : Ty}

/-- The variable without the promise that it never changes. -/
def changeable (v : VarDecl) : VarDecl := { v with isFinal := false, inferred := false }

/-- The expression can initialize a variable of the current scope. -/
def StandsInit (s : Session) (e : Expr) : Prop := s.Stands noTargets (initDepth s.maxDepth s.frame.depth) e

theorem StandsInit.step {a : Expr} (h : s.StandsInit a) (hstep : s.Step P s') : s'.StandsInit a := by
  unfold StandsInit
  rw [hstep.frame, hstep.maxDepth_eq]
  exact Stands.step h hstep

theorem StandsInit.shapesRoot {a : Expr} (h : s.StandsInit a) : s.ShapesRoot a :=
  ⟨h.depth.trans initDepth_le_rootDepth, h.value⟩

/-- A variable can be declared in the current scope: at the top level, or where it has a place. -/
def CanDeclare (s : Session) : Prop := s.frame.ns = .global ∨ s.HasPlace

theorem CanDeclare.step (h : s.CanDeclare) (hstep : s.Step P s') : s'.CanDeclare :=
  h.imp (fun h => (congrArg Frame.ns hstep.frame).trans h) (·.mono hstep.toLeads hstep.frame)

theorem CanDeclare.className?_eq (h : s.CanDeclare) (hs : s.Sound) : s.frame.ns.className? = none := by
  rcases h with h | h
  · rw [h, Namespace.className?_global]
  · exact (hs.body h.body).1

/-- The session has come to declare a variable in the current scope, and that was the last thing it
did. -/
structure DeclaresVar (P : Permit) (s : Session) (v : VarDecl) (s' : Session) : Prop where
  ty : v.ty.Plain
  last : ∃ s₀ s₁, s.Step P s₀ ∧ s₀.StandsInit v.init ∧ s₀.NewName v.name s₁ ∧
    s' = s₁.withContext (s₀.context.push s.frame.ns (.var v))

/-- A variable that is declared under a new name, as it is or changeable. -/
theorem registers_here {s₁ : Session} {C : Context} {w : VarDecl} (hs : s₀.Sound)
    (hname : s₀.NewName v.name s₁) (hplace : s₀.CanDeclare) (hP : P.Covers s₀.frame.ns)
    (hty : v.ty.Plain) (hinit : s₀.StandsInit v.init)
    (hw : w = v ∨ w = changeable v)
    (hC : ∀ m, C.scope m = (s₀.context.push s₀.frame.ns (.var w)).scope m) :
    Registers P s₀ (s₁.withContext C) s₀.frame.ns (.var w) := by
  have hsame : w.name = v.name ∧ w.ty = v.ty ∧ w.init = v.init := by
    rcases hw with rfl | rfl <;> exact ⟨rfl, rfl, rfl⟩
  refine NewName.registers_var (v := w) (by rwa [hsame.1]) hs hC
    (fun n hn => hname.passes.spent n (hs.here n hn)) (hplace.className?_eq hs) (hP.imp_right .inl) (hsame.2.1 ▸ hty)
    (fun hglobal => ?_) (hsame.2.2 ▸ hinit.shapesRoot) fun _ hglobal => ?_
  · have hfits := hinit.fits
    unfold FitsHere at hfits
    rw [hglobal, hs.root (.inl hglobal)] at hfits
    exact hsame.2.2 ▸ hfits
  · refine Stands.declFits ?_ (hplace.resolve_left hglobal)
    rw [hsame.2.2]
    exact hinit

namespace DeclaresVar

variable (h : DeclaresVar P s v s') (hplace : s.CanDeclare) (hP : P.Covers s.frame.ns)
include h hplace hP

theorem step : s.Step P s' := by
  obtain ⟨s₀, s₁, h₀, hinit, hname, rfl⟩ := h.last
  have hplace := hplace.step h₀
  rw [← h₀.frame] at hP ⊢
  exact h₀.trans ((registers_here h₀.sound hname hplace hP h.ty hinit (.inl rfl) fun _ => rfl).step
    h₀.sound (hname.passes.trans (.withContext (hname.step (P := P) h₀.sound).sound _)))

omit hplace hP in
theorem mem : .var v ∈ s'.decls s.frame.ns := by
  obtain ⟨s₀, s₁, h₀, -, -, rfl⟩ := h.last
  show Decl.var v ∈ (s₀.context.push s.frame.ns (.var v)).declarations s.frame.ns
  rw [Context.declarations_push, if_pos rfl]
  exact List.mem_append_right _ (List.mem_singleton_self _)

/-- **The variable is made changeable.** -/
theorem stepChangeable {f : Decl → Decl} (hf : f (.var v) = .var (changeable v)) :
    s.Step P (s'.withContext (s'.context.modify s.frame.ns .var v.name f)) ∧
      (s'.withContext (s'.context.modify s.frame.ns .var v.name f)).HasMutable s.frame.ns v.name := by
  obtain ⟨s₀, s₁, h₀, hinit, hname, rfl⟩ := h.last
  have hplace := hplace.step h₀
  have hfree : ∀ d ∈ s₀.context.declarations s.frame.ns, d.kind = .var → d.name ≠ v.name :=
    fun d hd _ heq => hname.not_taken h₀.sound ⟨_, d, hd, heq ▸ Sound.name_mem_names d⟩
  rw [← h₀.frame] at hP hfree ⊢
  have hscope : ∀ m, ((s₀.context.push s₀.frame.ns (.var v)).modify s₀.frame.ns .var v.name f).scope m =
      (s₀.context.push s₀.frame.ns (.var (changeable v))).scope m := fun m => by
    rw [scope_modify_push hfree, hf]
  have hr := registers_here (w := changeable v) (P := P) h₀.sound hname hplace hP h.ty hinit
    (.inr rfl) hscope
  refine ⟨h₀.trans (hr.step h₀.sound
    (hname.passes.trans (.withContext (hname.step (P := P) h₀.sound).sound _))), changeable v, ?_, rfl, rfl⟩
  show Decl.var (changeable v) ∈ Bindings.decls (Context.scope _ _)
  rw [Session.context_withContext, Session.context_withContext, hscope]
  show Decl.var (changeable v) ∈ Context.declarations _ _
  rw [Context.declarations_push, if_pos rfl]
  exact List.mem_append_right _ (List.mem_singleton_self _)

end DeclaresVar

end Session

open Session

variable {s s' : Session} {t : Ty} {a : Expr} {e : Engine} {P : Permit} {type : Option Ty}
variable {init : Option Expr} {onlyLeaves : Bool}

namespace Gen

/-- The type of a new variable: a plain one that is given, or any. -/
theorem variableType_ensures (hs : s.Sound) (ht : ∀ t ∈ type, t.Plain) :
    (variableType type).Ensures (Step P) s fun t _ => t.Plain := by
  unfold variableType
  have hkeep : ∀ s₁ t, s.Step P s₁ → Ty.Plain t →
      (if t.isWildcard then concretize t else pure t).Ensures (Step P) s₁ fun t _ => t.Plain := by
    intro s₁ t h₁ ht
    rw [ht.isWildcard, if_neg (by simp)]
    exact .pure (.refl h₁.sound) ht
  cases type with
  | some t => exact .pass (hkeep s t (.refl hs) (ht t rfl))
  | none =>
    exact ((selectType_chosen hs rfl).drawStep hs).bind fun t s₁ h₁ h => hkeep s₁ t h₁ h.2.plain

/-- The initializer of a new variable reads what is visible, and changes nothing. -/
theorem variableInit_ensures (hs : s.Sound) (ht : t.Plain)
    (hinit : ∀ a ∈ init, s.StandsInit a) (he : init = none → s.ServedExprs e 1)
    (hP : P.Covers s.frame.ns) :
    (variableInit e s.frame.ns t onlyLeaves init).Ensures (Step P) s fun a s' => s'.StandsInit a := by
  unfold variableInit
  cases init with
  | some a => exact .pure (.refl hs) (hinit a rfl)
  | none =>
    refine .inSameScope hs ⟨rfl, rfl, rfl, id, Nat.le_succ _⟩ fun s₁ heq hs₁ => ?_
    have he₁ : s₁.ServedExprs e 0 := by
      rw [heq]
      exact (he rfl).withFrame le_rfl
    refine (he₁.answer hs₁ (.inl ht) (by rw [heq]; exact hP)).mono fun a s₂ h₂ ha => ?_
    have hstands := (ha.value ht.isVoid).deeper (exprDepth_le_initDepth.2.trans (initDepth_mono
      (show s.frame.depth ≤ s₁.frame.depth by rw [heq]; exact Nat.le_succ _)))
    refine Stands.of_withFrame (s := { s₂ with frame := s.frame }) (f := s₂.frame) hstands ?_
    rw [h₂.frame, heq]
    exact ⟨rfl, rfl, rfl, id, Nat.le_succ _⟩

/-- **A variable is declared in the current scope.** -/
theorem genVariableDecl_declares (hs : s.Sound) (ht : ∀ t ∈ type, t.Plain)
    (hinit : ∀ a ∈ init, s.StandsInit a) (he : init = none → s.ServedExprs e 1)
    (hP : P.Covers s.frame.ns) :
    (genVariableDecl e type onlyLeaves init).Ensures (fun _ _ => True) s fun v s' =>
      DeclaresVar P s v s' := by
  rw [genVariableDecl_eq]
  refine (variableType_ensures (P := P) hs ht).seq fun t s₁ h₁ hplain => .get ?_
  rw [← h₁.frame] at hP
  refine (variableInit_ensures h₁.sound hplain (fun a ha => (hinit a ha).step h₁)
    (fun h => (he h).step h₁) hP).seq fun value s₂ h₂ hfits => ?_
  refine (Ensures.coin.drawStep (P := P) h₂.sound).seq fun isFinal s₃ h₃ _ => ?_
  refine (Ensures.coin.drawStep (P := P) h₃.sound).seq fun inferred s₄ h₄ _ => ?_
  refine (word_step (P := P) h₄.sound).seq fun name s₅ h₅ ⟨hname, _⟩ => ?_
  rw [h₁.frame]
  extract_lets decl
  refine Ensures.seq (R := fun _ _ => True)
    (Q := fun _ s' => s' = s₅.withContext (s₄.context.push s.frame.ns (.var decl)))
    (.updateContext ?_ ?_ trivial rfl) fun _ s' _ hs' => .pure trivial
      ⟨hplain, s₄, s₅, h₁.trans (h₂.trans (h₃.trans h₄)), (hfits.step h₃).step h₄, hname, hs'⟩
  · rw [hname.context]
    refine Context.addVar_eq_push rfl fun d hd _ heq => hname.not_taken h₄.sound ⟨_, d, hd, ?_⟩
    rw [show name = d.name from heq.symm]
    exact Sound.name_mem_names d
  · rw [← hname.context]
    exact .push (d := .var decl) nofun (fun _ => rfl) fun _ => rfl

theorem genVariableDecl_step (hs : s.Sound) (ht : ∀ t ∈ type, t.Plain)
    (hinit : ∀ a ∈ init, s.StandsInit a) (he : init = none → s.ServedExprs e 1)
    (hplace : s.CanDeclare) (hP : P.Covers s.frame.ns) :
    (genVariableDecl e type onlyLeaves init).Ensures (Step P) s fun v s' =>
      v.ty.Plain ∧ .var v ∈ s'.decls s.frame.ns :=
  (genVariableDecl_declares hs ht hinit he hP).imp fun _ _ _ h =>
    ⟨h.step hplace hP, h.ty, h.mem⟩

/-- **A variable is declared that changes.** -/
theorem genChangeable_step {β : Type} {k : VarDecl → Gen β} {Q : β → Session → Prop} (hs : s.Sound) (ht : t.Plain)
    (he : s.ServedExprs e 1) (hplace : s.CanDeclare) (hP : P.Covers s.frame.ns)
    (hk : ∀ v s₁, s.Step P s₁ → v.ty.Plain → s₁.HasMutable s.frame.ns v.name → (k v).Ensures (Step P) s₁ Q) :
    (do let v ← genVariableDecl e (some t) onlyLeaves none
        makeMutable v.name
        k v).Ensures (Step P) s Q := by
  refine (genVariableDecl_declares hs (fun u hu => Option.mem_some.mp hu ▸ ht) (by simp) (fun _ => he)
    hP).seq fun v s₁ _ h => ?_
  have hframe : s₁.frame = s.frame := (h.step hplace hP).frame
  refine Ensures.seq (R := fun _ s' => s.Step P s') (Q := fun _ s' => s'.HasMutable s.frame.ns v.name) ?_
    fun _ s₂ h₂ hm => (hk v s₂ h₂ h.ty hm).weaken fun _ => h₂.trans
  unfold makeMutable
  refine .get ?_
  rw [hframe]
  refine .modifyContext (.modifyVar fun d => by cases d <;> simp) ?_ ?_
  · exact (h.stepChangeable hplace hP rfl).1
  · exact (h.stepChangeable hplace hP rfl).2

end Gen

/-! ## Statements -/

namespace Session

/-- A statement for the block of the current scope. -/
structure IsStatement (s : Session) (a : Expr) : Prop where
  fits : s.FitsHere s.statements a
  depth : a.depth + 1 ≤ bodyDepth s.maxDepth s.frame.depth

theorem IsStatement.step (h : s.IsStatement a) (hstep : s.Step P s') : s'.IsStatement a := by
  refine ⟨h.fits.mono hstep.toLeads hstep.frame (statements_mono hstep.toLeads hstep.frame), ?_⟩
  rw [hstep.maxDepth_eq, hstep.frame]
  exact h.depth

theorem IsStatement.of_init (hfits : s.FitsHere s.statements a)
    (hdepth : a.depth ≤ initDepth s.maxDepth s.frame.depth) : s.IsStatement a := by
  have := initDepth_lt_bodyDepth (L := s.maxDepth) (d := s.frame.depth)
  exact ⟨hfits, by omega⟩

/-- An answer can be a statement. -/
theorem Answers.isStatement (ha : s.Answers s.frame.depth t a) : s.IsStatement a := by
  refine .of_init (ha.stands.fits.targets ?_) (ha.stands.depth.trans exprDepth_le_initDepth.2)
  unfold Targets
  split
  · exact .refl _
  · exact .noTargets trivial

end Session

namespace Gen

/-- An answer as a statement of the current scope. -/
theorem asStatement_step (hs : s.Sound) (ha : s.Answers s.frame.depth t a)
    (hplace : s.CanDeclare) (hP : P.Covers s.frame.ns) :
    (asStatement e a).Ensures (Step P) s fun r s' => ∀ b ∈ r, s'.IsStatement b := by
  have hsame : (pure (some a) : Gen (Option Expr)).Ensures (Step P) s fun r s' => ∀ b ∈ r, s'.IsStatement b :=
    .pure (.refl hs) fun b hb => by
      cases hb
      exact ha.isStatement
  unfold asStatement
  split
  all_goals try exact hsame
  split
  · exact hsame
  · rename_i u hu
    obtain ⟨hrequested, hvoid⟩ := ha.ty u hu
    split
    · exact hsame
    · rename_i hnot
      have hnot : u.isVoid = false := by simpa using hnot
      have hplain : u.Plain := hrequested.plain hnot
      have hvalue : ∀ b ∈ some a, s.StandsInit b := fun b hb => by
        rw [← Option.some.inj hb]
        exact (ha.value (hvoid ▸ hnot)).deeper exprDepth_le_initDepth.2
      have htype : ∀ v ∈ some u, v.Plain := fun v hv => Option.some.inj hv ▸ hplain
      exact (genVariableDecl_step hs htype hvalue (fun h => by cases h) hplace hP).bind
        fun v s₁ h₁ _ => .pure (.refl h₁.sound) (by simp)

end Gen

end ProgramGen

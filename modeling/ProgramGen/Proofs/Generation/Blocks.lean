import ProgramGen.Proofs.Generation.Values

/-!
# Blocks

A block for the current scope has what the scope declares and expressions that fit in the scope. It is
one level deeper than the deepest of them.
-/

namespace ProgramGen

variable {b : Block} {k : Nat}

/-- A block is one level deeper than what stands in it. -/
theorem Block.depth_le (hdecls : ∀ v : VarDecl, Stmt.decl (.var v) ∈ b.stmts → v.init.depth ≤ k)
    (hexprs : ∀ a, Stmt.expr a ∈ b.stmts → a.depth ≤ k) : (Expr.block b).depth ≤ k + 1 := by
  refine Expr.depth_le_succ fun a ha => ?_
  obtain ⟨st, hst, heq⟩ := List.mem_filterMap.mp (show a ∈ b.stmts.filterMap Stmt.expr? from ha)
  cases st with
  | expr a' =>
    cases heq
    exact hexprs a hst
  | decl d =>
    cases d <;> cases heq
    exact hdecls _ hst

theorem Block.mem_decls {d : Decl} : d ∈ b.decls ↔ Stmt.decl d ∈ b.stmts := by
  unfold Block.decls
  rw [List.mem_filterMap]
  constructor
  · rintro ⟨st, hst, heq⟩
    cases st <;> cases heq
    exact hst
  · exact fun h => ⟨_, h, rfl⟩

namespace Session

variable {s : Session} {A A' : String → Prop}

/-- What is declared in the current scope and fits there can stand in a tree. -/
theorem Sound.shaped_local (hs : s.Sound) {d : Decl} (h : d ∈ s.localDecls) (hfits : s.DeclFits d) :
    d.Shaped s.language (rootDepth s.maxDepth) ∧ d.IsWhole :=
  ⟨hs.shaped _ d (List.mem_of_mem_filter h) hfits.kind, hfits.whole⟩

/-- **A block stands in the place of its scope.** -/
theorem Sound.fitsHere_block (hs : s.Sound) (hlocal : s.frame.ns.IsLocal)
    (hdecls : ∀ d, Stmt.decl d ∈ b.stmts → d ∈ s.localDecls ∧ s.DeclFits d)
    (hexprs : ∀ e, Stmt.expr e ∈ b.stmts → s.FitsHere ⟨A, True⟩ e) (hcollects : s.Collects b)
    (hA : ∀ n, A n → A' n ∨ ∃ x : VarDecl, Stmt.decl (.var x) ∈ b.stmts ∧ x.name = n) :
    s.FitsHere ⟨A', False⟩ (.block b) := by
  refine Fits.node ⟨nofun, fun d hd => ?_, nofun⟩ (fun _ _ _ _ => trivial) (fun _ _ => trivial)
    (hs.fits_block hlocal hdecls hexprs hcollects hA)
  obtain ⟨hmem, hfits⟩ := hdecls d (Block.mem_decls.mp hd)
  exact hs.shaped_local hmem hfits

/-- **A bare expression stands in the place of its scope** if the scope has no variables to collect. -/
theorem FitsHere.bare {a : Expr} (h : s.FitsHere ⟨A, True⟩ a) (hs : s.Sound) (hclass : s.frame.ns.className? = none)
    (hcollects : s.Collects ⟨[], false⟩) : s.FitsHere ⟨A, False⟩ a :=
  Fits.within (g := id) h (fun _ _ _ hv => hv) fun _ hl _ hv => hcollects.shows hs hclass hl hv

end Session

end ProgramGen

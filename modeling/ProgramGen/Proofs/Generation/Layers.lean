import ProgramGen.Proofs.Generation.Body

/-!
# Layers of the engine

A layer answers a request if the layers below it answer what the request leads to: requests one level
deeper, and at the same depth requests that leave less open. Six layers are enough for a level of depth,
and below twice the limit three are enough for all levels, since only literals are left. So the layers of
a configuration never run out.
-/

namespace ProgramGen

open Session Gen

variable {s : Session} {t : Ty} {o : ExprOpts} {P : Permit} {L d k m n : Nat}

namespace Engine

/-! ## Beyond the limit -/

theorem servesGround_layers (hd : 2 * L < d) : (layers (n + 1)).ServesGround L d := by
  rintro s t o P hs rfl hdepth ht hground hP
  refine genExpr_beyond_ensures hs (fun happlied => ?_) (hd.trans_le hdepth) hP (.inl ht)
  cases t <;> simp_all [Ty.isGround, Ty.isApplied]

theorem servesExprs_layers (hd : 2 * L < d) : (layers (n + 2)).ServesExprs L d := by
  constructor
  rintro s t o P hs rfl hdepth ht hP
  exact genExpr_beyond_ensures hs (fun _ => servesGround_layers (Nat.lt_succ_of_lt (hd.trans_le hdepth)))
    (hd.trans_le hdepth) hP ht

theorem serves_layers_beyond (hd : 2 * L < d) : (layers (n + 3)).Serves L d where
  toServesExprs := servesExprs_layers hd
  body := by
    rintro s t P hs rfl hdepth ht hns hplace hdecls hP
    refine genBody_ensures hs (servesExprs_layers (hd.trans_le hdepth)) hplace hP hns hdecls (fun hlt => ?_) ht
    have : s.maxDepth = s.config.limits.maxDepth := rfl
    omega

/-! ## Within the limit -/

section Within

variable (hbelow : ∀ n, m ≤ n → (layers n).Serves L (d + 1)) (hd : d ≤ 2 * L)
include hbelow hd

theorem new_layers (hs : s.Sound) (hL : s.config.limits.maxDepth = L) (hdepth : s.frame.depth = d)
    (hP : P.Covers s.frame.ns) (hn : m + 1 ≤ n) (ht : s.Concrete t) :
    ((layers n).new t false).Ensures (Step P) s fun a s' => s'.Answers s.frame.depth t a := by
  subst hL hdepth
  obtain ⟨n, rfl⟩ := Nat.exists_eq_add_of_le' (Nat.le_of_add_left_le hn)
  exact genNew_ensures hs ht.plain (hbelow n (Nat.le_of_succ_le_succ hn)) hd hP fun _ _ _ hnot => absurd ht hnot

/-- **Requests that leave less open need fewer layers.** -/
theorem expr_layers (hs : s.Sound) (hL : s.config.limits.maxDepth = L) (hdepth : s.frame.depth = d)
    (hP : P.Covers s.frame.ns) (ho : o.rank < k) (hn : m + 1 + k ≤ n) (ht : t.Requested) :
    ((layers n).expr t o).Ensures (Step P) s fun a s' => s'.Answers s.frame.depth t a := by
  induction k generalizing n s o t with
  | zero => cases ho
  | succ k ih =>
    obtain ⟨n, rfl⟩ := Nat.exists_eq_add_of_le' (Nat.le_of_add_left_le (show (m + k + 1) + 1 ≤ n by omega))
    have hserved : s.Served (layers n) 1 := by
      unfold Served
      rw [hL, hdepth]
      exact hbelow n (by omega)
    have hdepth' : s.frame.depth ≤ 2 * s.maxDepth := by
      rw [hdepth, show s.maxDepth = L from hL]
      exact hd
    have hlater : ∀ {s₁ : Session}, s.Step P s₁ → s₁.config.limits.maxDepth = L ∧ s₁.frame.depth = d ∧ P.Covers s₁.frame.ns :=
      fun h₁ => by
        rw [h₁.config, h₁.frame]
        exact ⟨hL, hdepth, hP⟩
    refine genExpr_within_ensures hs hserved ⟨fun s₁ t₁ o₁ h₁ ht₁ ho₁ => ?_, fun s₁ t₁ h₁ ht₁ => ?_⟩ hdepth' hP ht
    · obtain ⟨hL₁, hdepth₁, hP₁⟩ := hlater h₁
      rw [← h₁.frame]
      exact ih h₁.sound hL₁ hdepth₁ hP₁ (by omega) (by omega) (.inl ht₁)
    · obtain ⟨hL₁, hdepth₁, hP₁⟩ := hlater h₁
      rw [← h₁.frame]
      exact new_layers hbelow hd h₁.sound hL₁ hdepth₁ hP₁ (by omega) ht₁

theorem servesExprs_layers_within (hn : m + 5 ≤ n) : (layers n).ServesExprs L d := by
  constructor
  intro s t o P hs hL hdepth ht hP
  rcases Nat.eq_or_lt_of_le hdepth with heq | hlt
  · exact expr_layers hbelow hd hs hL heq.symm hP (Nat.lt_succ_of_le ExprOpts.rank_le_three) hn ht
  · exact (hbelow n (by omega)).expr hs hL hlt ht hP

/-- **Six layers are enough for a level of depth.** -/
theorem serves_layers_within (hn : m + 6 ≤ n) : (layers n).Serves L d where
  toServesExprs := servesExprs_layers_within hbelow hd (by omega)
  body := by
    intro s t P hs hL hdepth ht hns hplace hdecls hP
    obtain ⟨n, rfl⟩ := Nat.exists_eq_add_of_le' (Nat.le_of_add_left_le (show (m + 5) + 1 ≤ n from hn))
    rcases Nat.eq_or_lt_of_le hdepth with heq | hlt
    · subst hL heq
      exact genBody_ensures hs (servesExprs_layers_within hbelow hd (by omega)) hplace hP hns hdecls
        (fun _ => hbelow n (by omega)) ht
    · exact (hbelow (n + 1) (by omega)).body hs hL hlt ht hns hplace hdecls hP

end Within

/-! ## All levels -/

/-- **Layers for all levels from `d` on**, where `k` levels are left to twice the limit. -/
theorem serves_layers (hd : 2 * L < d + k) (hn : 6 * k + 3 ≤ n) : (layers n).Serves L d := by
  induction k generalizing n d with
  | zero =>
    obtain ⟨n, rfl⟩ := Nat.exists_eq_add_of_le' hn
    exact serves_layers_beyond hd
  | succ k ih =>
    by_cases hwithin : d ≤ 2 * L
    · exact serves_layers_within (m := 6 * k + 3) (fun n hn => ih (by omega) hn) hwithin (by omega)
    · exact ih (by omega) (by omega)

/-- **The layers of a configuration serve all depths.** -/
theorem serves_engine (c : Config) : c.engine.Serves c.limits.maxDepth 0 := by
  refine serves_layers (k := 2 * c.limits.maxDepth + 1) (by omega) ?_
  unfold Limits.layers
  omega

end Engine

end ProgramGen

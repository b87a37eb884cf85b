import ProgramGen.Proofs.Typing.Closure

/-!
# What variables are bound to

Unification and instantiation bind parameters to types that are at hand: parts of the types that
are unified, candidates, and bounds that the bindings before them make ground. So their bindings
stay over the vocabulary that these come from.
-/

namespace ProgramGen

variable {V : Vocabulary} {t u : Ty} {c : TypeCtor} {args : List Ty} {p : TypeParam}
variable {m m' : Subst} {ps : List TypeParam} {types : List Ty}

/-! ## Values -/

/-- Everything that the substitution binds to is over the vocabulary. -/
def Subst.Over (V : Vocabulary) (m : Subst) : Prop := ∀ x ∈ m.entries, x.2.Over V

/-- To be over a vocabulary passes to the parts of a type, and substitution keeps it. -/
theorem Ty.Over.closed (V : Vocabulary) : Ty.Closed (Ty.Over V) where
  arg h ht := h.arg ht
  bound h hb := by
    cases h with
    | param hbound => exact hbound _ hb
  wildcard h := nomatch h
  subst h hm := h.subst hm

/-- A variable that occurs in a type over a vocabulary is itself such a type. -/
theorem Ty.Occurs.over (h : t.Occurs p) (ht : t.Over V) : (Ty.param p).Over V :=
  h.closed (Ty.Over.closed V) ht

/-- The effective bound of a variable over a vocabulary is over it. -/
theorem TypeParam.over_effectiveBound {b : Ty} (hp : (Ty.param p).Over V)
    (h : p.effectiveBound = some b) : b.Over V :=
  (Ty.Over.closed V).effectiveBound hp h

namespace Subst.Over

theorem lookup (hm : m.Over V) {n : String} (h : m.lookup n = some u) : u.Over V := All.lookup hm h

theorem subst (hm : m.Over V) (ht : t.Over V) : (t.subst m).Over V := ht.subst fun _ _ => hm.lookup

theorem mono {V' : Vocabulary} (hm : m.Over V) (h : ∀ t : Ty, t.Over V → t.Over V') : m.Over V' :=
  fun x hx => h _ (hm x hx)

theorem empty : (∅ : Subst).Over V := All.empty

theorem insert (hm : m.Over V) (ht : t.Over V) : (m.insert p t).Over V := All.insert hm ht

theorem ofList {L : List (TypeParam × Ty)} (h : ∀ x ∈ L, x.2.Over V) : (ofList L).Over V := All.ofList h

theorem argMap (ht : t.Over V) : t.argMap.Over V := All.argMap (Ty.Over.closed V) ht

theorem insertMissing (hm : m.Over V) (hm' : m'.Over V) : (m.insertMissing m').Over V :=
  All.insertMissing hm hm'

end Subst.Over

/-- **What a unification binds to are types that are unified.** -/
theorem Ty.Over.unify? {e a : Ty} (he : e.Over V) (ha : a.Over V) (h : e.unify? a = some m) :
    m.Over V :=
  (Ty.Over.closed V).unify? he ha h

/-! ## Instantiation -/

/-- Types that can stand at a position: over the vocabulary, or generic classes of it that still
lack their arguments. -/
def Ty.Offered (V : Vocabulary) (t : Ty) : Prop :=
  t.Over V ∨ ∃ c, V.classes c ∧ t = .constructor c

theorem Ty.Offered.mem_classes (h : (Ty.constructor c).Offered V) : V.classes c := by
  rcases h with h | ⟨d, hd, h⟩
  · cases h with
    | constructor _ hc => exact hc
  · cases h
    exact hd

/-- What can be an argument among types that can stand at a position is over the vocabulary. -/
theorem Ty.Offered.over (h : t.Offered V) (hargument : t.isArgument) : t.Over V := by
  rcases h with h | ⟨c, -, rfl⟩
  · exact h
  · simp [isArgument, isConstructor] at hargument

/-- **Arguments from types over a vocabulary are over it.** -/
theorem Filled.over {fixed : Subst} (h : Filled types fixed ps m args m')
    (htypes : ∀ u ∈ types, u.Offered V) (hfixed : fixed.Over V)
    (hps : ∀ p ∈ ps, (Ty.param p).Over V) (hm : m.Over V) :
    (∀ a ∈ args, a.Over V) ∧ m'.Over V :=
  h.closed (Ty.Over.closed V) (fun u hu => (htypes u hu).over) hfixed hps hm

/-! ## Names of arguments -/

/-- Every bound mentions only parameters that come before it. -/
def Telescoped : List String → List TypeParam → Prop
  | _, [] => True
  | before, p :: ps => (∀ b ∈ p.bound, b.NamesIn (· ∈ before)) ∧ Telescoped (p.name :: before) ps

/-- **Arguments drawn for a telescope mention no names but those of the candidates.** -/
theorem Filled.namesIn {N : String → Prop} {before : List String}
    (h : Filled types ∅ ps m args m') (hps : Telescoped before ps)
    (htypes : ∀ u ∈ types, u.isArgument → u.NamesIn N)
    (hm : ∀ n ∈ before, ∃ u, m.lookup n = some u ∧ u.NamesIn N) : ∀ a ∈ args, a.NamesIn N := by
  induction h generalizing before with
  | nil => simp
  | @cons q qs σ a as τ h _ ih =>
    have ha : a.NamesIn N := by
      cases h with
      | fixed h => cases h
      | candidate h hargument => exact htypes a h hargument
      | bound hb ht =>
        rw [ht]
        refine (hps.1 _ hb).subst fun n hn => ?_
        obtain ⟨u, hu, hnames⟩ := hm n hn
        simp [hu, hnames]
    refine List.forall_mem_cons.mpr ⟨ha, ih hps.2 fun n hn => ?_⟩
    rw [Subst.lookup_insert]
    rcases List.mem_cons.mp hn with rfl | hn
    · exact ⟨a, by simp, ha⟩
    · split
      · exact ⟨a, rfl, ha⟩
      · exact hm n hn

/-! ## Functions -/

/-- **The type parameters of a function are all bound**, to types over the vocabulary, and what was
bound before stays bound. -/
theorem instantiateFunction_canGive (h : (instantiateFunction types ps m).CanGive (some m'))
    (htypes : ∀ u ∈ types, u.Offered V) (hps : ∀ p ∈ ps, (Ty.param p).Over V) (hm : m.Over V) :
    m'.Over V :=
  (Ty.Over.closed V).instantiateFunction h (fun u hu => (htypes u hu).over) hps hm

end ProgramGen

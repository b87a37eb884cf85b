import ProgramGen.Ty.Subst

/-!
# Supertypes

The declared supertypes of a type, and all types reached from it by taking supertypes again and
again. Arguments are substituted into the supertypes of a generic class, which may make a supertype
larger than the type it belongs to. Still every supertype weighs less: the weight of a generic type
counts its class's supertypes with the weights of the arguments in place of the parameters. So every
ascent ends.
-/

namespace ProgramGen

/-! ## Direct supertypes -/

/-- The declared supertypes; a bound is the only supertype of a variable or wildcard. -/
def Ty.supertypes : Ty → List Ty
  | .builtin _ _ _ _ s => s
  | .simple _ s => s
  | .constructor c => c.supers
  | .applied c args => c.supers.map (Ty.subst (Subst.ofArgs c.params args))
  | .param p => p.bound.toList
  | .wildcard _ b => b.toList

/-! ## Weight -/

/-- What each name weighs when parameters stand for arguments of the given weights. -/
def argWeights (params : List TypeParam) (weights : List Nat) (n : String) : Option Nat :=
  (params.zip weights).foldl (fun w x => if x.1.name = n then some x.2 else w) none

/-- The sum of some weights. -/
def totalWeight : List Nat → Nat
  | [] => 0
  | n :: ns => n + totalWeight ns

theorem totalWeight_append (xs ys : List Nat) :
    totalWeight (xs ++ ys) = totalWeight xs + totalWeight ys := by
  induction xs with
  | nil => simp [totalWeight]
  | cons x xs ih =>
    simp only [List.cons_append, totalWeight, ih]
    omega

mutual

/-- The weight of a type whose variables weigh what `env` says. -/
def Ty.weightIn : Ty → (String → Option Nat) → Nat
  | .builtin _ _ _ _ s, _ => 1 + totalWeight (Ty.weightsIn s fun _ => none)
  | .simple _ s, _ => 1 + totalWeight (Ty.weightsIn s fun _ => none)
  | .param ⟨n, _, b⟩, env =>
    match env n with
    | some w => w
    | none => 1 + Ty.boundWeightIn b env
  | .wildcard _ b, env => 1 + Ty.boundWeightIn b env
  | .constructor ⟨_, _, s, _⟩, _ => 1 + totalWeight (Ty.weightsIn s fun _ => none)
  | .applied ⟨_, ps, s, _⟩ args, env =>
    1 + totalWeight (Ty.weightsIn args env) +
      totalWeight (Ty.weightsIn s (argWeights ps (Ty.weightsIn args env)))

def Ty.boundWeightIn : Option Ty → (String → Option Nat) → Nat
  | none, _ => 0
  | some t, env => t.weightIn env

def Ty.weightsIn : List Ty → (String → Option Nat) → List Nat
  | [], _ => []
  | t :: ts, env => t.weightIn env :: Ty.weightsIn ts env

end

/-- The weight of a type. -/
def Ty.weight (t : Ty) : Nat := t.weightIn fun _ => none

theorem Ty.weightsIn_eq (ts : List Ty) (env : String → Option Nat) :
    Ty.weightsIn ts env = ts.map (·.weightIn env) := by
  induction ts with
  | nil => rfl
  | cons t ts ih => simp [Ty.weightsIn, ih]

theorem Subst.lookup_ofArgs (ps : List TypeParam) (args : List Ty) (n : String) :
    (Subst.ofArgs ps args).lookup n =
      (ps.zip args).foldl (fun r x => if x.1.name = n then some x.2 else r) none := by
  suffices ∀ (xs : List (TypeParam × Ty)) (m : Subst),
      (xs.foldl (fun m x => m.insert x.1 x.2) m).lookup n =
        xs.foldl (fun r x => if x.1.name = n then some x.2 else r) (m.lookup n) from this _ _
  intro xs
  induction xs with
  | nil => simp
  | cons x xs ih => intro m; simp [ih, lookup_insert]

theorem argWeights_map (f : Ty → Nat) (ps : List TypeParam) (args : List Ty) (n : String) :
    argWeights ps (args.map f) n = ((Subst.ofArgs ps args).lookup n).map f := by
  rw [Subst.lookup_ofArgs, argWeights, List.zip_map_right]
  suffices ∀ (xs : List (TypeParam × Ty)) (r : Option Ty),
      (xs.map (Prod.map id f)).foldl (fun w x => if x.1.name = n then some x.2 else w) (r.map f) =
        (xs.foldl (fun r x => if x.1.name = n then some x.2 else r) r).map f from this _ none
  intro xs
  induction xs with
  | nil => simp
  | cons x xs ih =>
    intro r
    by_cases h : x.1.name = n
    · simpa [h] using ih (some x.2)
    · simpa [h] using ih r

/-- What each name weighs once `m` is applied. -/
def Subst.weightsIn (m : Subst) (env : String → Option Nat) (n : String) : Option Nat :=
  match m.lookup n with
  | some t => some (t.weightIn env)
  | none => env n

mutual

/-- **To substitute is to weigh with the weights of the values.** -/
theorem Ty.weightIn_subst (m : Subst) :
    ∀ (t : Ty) (env : String → Option Nat),
      (t.subst m).weightIn env = t.weightIn (m.weightsIn env)
  | .builtin .., _ => by simp [Ty.subst, Ty.weightIn]
  | .simple .., _ => by simp [Ty.subst, Ty.weightIn]
  | .param ⟨n, v, b⟩, env => by
    cases h : m.lookup n with
    | some t => simp [Ty.subst, Ty.weightIn, Subst.weightsIn, h]
    | none =>
      simp only [Ty.subst, Ty.weightIn, Subst.weightsIn, h]
      rw [Ty.boundWeightIn_subst m b env]
  | .wildcard _ b, env => by simp [Ty.subst, Ty.weightIn, Ty.boundWeightIn_subst m b env]
  | .constructor ⟨_, _, _, _⟩, _ => by simp [Ty.subst, Ty.weightIn]
  | .applied ⟨_, _, _, _⟩ args, env => by
    simp [Ty.subst, Ty.weightIn, Ty.weightsIn_subst m args env]

theorem Ty.boundWeightIn_subst (m : Subst) :
    ∀ (b : Option Ty) (env : String → Option Nat),
      Ty.boundWeightIn (Ty.substBound m b) env = Ty.boundWeightIn b (m.weightsIn env)
  | none, _ => rfl
  | some t, env => Ty.weightIn_subst m t env

theorem Ty.weightsIn_subst (m : Subst) :
    ∀ (ts : List Ty) (env : String → Option Nat),
      Ty.weightsIn (Ty.substList m ts) env = Ty.weightsIn ts (m.weightsIn env)
  | [], _ => rfl
  | t :: ts, env => by
    simp [Ty.substList, Ty.weightsIn, Ty.weightIn_subst m t env, Ty.weightsIn_subst m ts env]

end

theorem Ty.weight_le_totalWeight {ts : List Ty} {t : Ty} (h : t ∈ ts) :
    t.weight ≤ totalWeight (ts.map weight) := by
  induction ts with
  | nil => simp at h
  | cons u us ih =>
    rcases List.mem_cons.mp h with rfl | h
    · simp [totalWeight]
    · have := ih h
      simp only [List.map_cons, totalWeight]
      omega

theorem Ty.weights_eq (ts : List Ty) : Ty.weightsIn ts (fun _ => none) = ts.map weight :=
  weightsIn_eq ts _

/-- A generic type weighs one, its arguments, and its supertypes. -/
theorem Ty.weight_applied (c : TypeCtor) (args : List Ty) :
    (Ty.applied c args).weight =
      1 + totalWeight (args.map weight) +
        totalWeight ((Ty.applied c args).supertypes.map weight) := by
  obtain ⟨n, ps, ss, b⟩ := c
  have h : ∀ s : Ty, (s.subst (Subst.ofArgs ps args)).weight =
      s.weightIn (argWeights ps (args.map weight)) := by
    intro s
    rw [weight, weightIn_subst]
    congr 1
    funext n
    rw [argWeights_map, Subst.weightsIn]
    cases (Subst.ofArgs ps args).lookup n <;> rfl
  rw [weight, weightIn, weights_eq, weightsIn_eq, supertypes, List.map_map]
  simp only [Function.comp_def, h]

/-- The supertypes of a type together weigh less than the type. -/
theorem Ty.totalWeight_supertypes_lt (t : Ty) :
    totalWeight (t.supertypes.map weight) < t.weight := by
  cases t with
  | builtin _ _ _ _ s => rw [weight, weightIn, weights_eq, supertypes]; omega
  | simple _ s => rw [weight, weightIn, weights_eq, supertypes]; omega
  | param p =>
    obtain ⟨n, v, b⟩ := p
    cases b with
    | none => simp [weight, weightIn, supertypes, boundWeightIn, totalWeight]
    | some t => simp [weight, weightIn, supertypes, boundWeightIn, totalWeight]
  | wildcard v b =>
    cases b with
    | none => simp [weight, weightIn, supertypes, boundWeightIn, totalWeight]
    | some t => simp [weight, weightIn, supertypes, boundWeightIn, totalWeight]
  | constructor c =>
    obtain ⟨n, ps, ss, b⟩ := c
    rw [weight, weightIn, weights_eq]
    simp only [supertypes]
    omega
  | applied c args => rw [weight_applied]; omega

/-- **A supertype weighs less.** -/
theorem Ty.weight_lt_of_mem_supertypes {s t : Ty} (h : s ∈ t.supertypes) : s.weight < t.weight :=
  Nat.lt_of_le_of_lt (weight_le_totalWeight h) (totalWeight_supertypes_lt t)

/-- An argument weighs less than the type it is an argument of. -/
theorem Ty.weight_lt_applied {c : TypeCtor} {args : List Ty} {a : Ty} (h : a ∈ args) :
    a.weight < (Ty.applied c args).weight := by
  have := weight_le_totalWeight h
  rw [weight_applied]
  omega

/-! ## All supertypes -/

/-- The types of a list that are not in `seen`, each once. -/
def newTypes (seen : List Ty) : List Ty → List Ty
  | [] => []
  | t :: ts => if t ∈ seen then newTypes seen ts else t :: newTypes (seen ++ [t]) ts

theorem totalWeight_newTypes_le (seen ts : List Ty) :
    totalWeight ((newTypes seen ts).map Ty.weight) ≤ totalWeight (ts.map Ty.weight) := by
  induction ts generalizing seen with
  | nil => simp [newTypes]
  | cons t ts ih =>
    by_cases h : t ∈ seen
    · have := ih seen
      simp only [newTypes, h, if_true, List.map_cons, totalWeight]
      omega
    · have := ih (seen ++ [t])
      simp only [newTypes, h, if_false, List.map_cons, totalWeight]
      omega

/-- Complete a list of types by supertypes: `done` are the types whose supertypes are in already,
`pending` the others. -/
def supertypeClosure (done : List Ty) : List Ty → List Ty
  | [] => done
  | t :: rest =>
    supertypeClosure (done ++ [t]) (rest ++ newTypes (done ++ t :: rest) t.supertypes)
  termination_by pending => totalWeight (pending.map Ty.weight)
  decreasing_by
    have h1 := totalWeight_newTypes_le (done ++ t :: rest) t.supertypes
    have h2 := t.totalWeight_supertypes_lt
    simp only [List.map_append, List.map_cons, totalWeight_append, totalWeight]
    omega

/-- The type and everything above it, nearest first, without repetition. -/
def Ty.allSupertypes (t : Ty) : List Ty := supertypeClosure [] [t]

end ProgramGen

import ProgramGen.Cli.Batch

/-!
# Requests do not disturb one another

A service keeps its source of choices from one request to the next, as the request leaves it: with
words used up, names numbered and the stream advanced, and no less so where the request failed. Two
services with the same settings differ in their sources alone, and a request resets the source
before anything is drawn from it; so their answers are the same.
-/

namespace ProgramGen

variable {seed : UInt64} {l : Language}

/-- **A reset leaves nothing of the old pool.** -/
theorem WordPool.reset_eq_full (p : WordPool) : p.reset l = full l := rfl

/-- **A reset leaves nothing of the old source.** -/
theorem Source.reset_eq_ofSeed (s : Source) : s.reset seed l = ofSeed seed l := rfl

/-- What a service can be asked for. -/
inductive Request where
  /-- A program, or the reason why there is none. -/
  | attempt (l : Language) (seed : UInt64)
  | program (l : Language) (seed : UInt64)
  | pair (seed : UInt64)

namespace Service

variable {s s' : Service}

/-- The service that a request leaves, whether or not it had an answer. -/
def afterRequest (s : Service) : Request → Service
  | .attempt l seed => (s.tryGenerate l seed).2
  | .program l seed => (s.generate l seed).2
  | .pair seed => (s.generatePair seed).2

/-- The service that a history of requests leaves. -/
def after (s : Service) (history : List Request) : Service := history.foldl afterRequest s

/-- The services have the same settings; their sources may differ. -/
structure Alike (s s' : Service) : Prop where
  config : s.config = s'.config
  strict : s.strict = s'.strict

namespace Alike

theorem refl (s : Service) : s.Alike s := ⟨rfl, rfl⟩

theorem trans {s'' : Service} (h : s.Alike s') (h' : s'.Alike s'') : s.Alike s'' :=
  ⟨h.config.trans h'.config, h.strict.trans h'.strict⟩

/-- **The answer is a matter of the settings and the request.** -/
theorem tryGenerate_eq (h : s.Alike s') : (s.tryGenerate l seed).1 = (s'.tryGenerate l seed).1 := by
  obtain ⟨config, strict, source⟩ := s
  obtain ⟨config', strict', source'⟩ := s'
  obtain ⟨rfl, rfl⟩ := h
  simp only [tryGenerate, Source.reset_eq_ofSeed]

theorem generate_eq (h : s.Alike s') : (s.generate l seed).1 = (s'.generate l seed).1 :=
  congrArg Except.toOption h.tryGenerate_eq

end Alike

/-! ## Histories -/

theorem tryGenerate_alike : s.Alike (s.tryGenerate l seed).2 := ⟨rfl, rfl⟩

theorem generate_alike : s.Alike (s.generate l seed).2 := tryGenerate_alike

theorem generatePair_alike : s.Alike (s.generatePair seed).2 := generate_alike.trans generate_alike

/-- A request leaves the settings alone. -/
theorem afterRequest_alike (r : Request) : s.Alike (s.afterRequest r) := by
  cases r with
  | attempt l seed => exact tryGenerate_alike
  | program l seed => exact generate_alike
  | pair seed => exact generatePair_alike

theorem after_alike (history : List Request) : s.Alike (s.after history) := by
  induction history generalizing s with
  | nil => exact .refl s
  | cons r rest ih => exact (afterRequest_alike r).trans ih

/-- In a batch, every program is what its request would be answered with alone. -/
theorem answers_eq_map (s : Service) (requests : List (Language × UInt64)) :
    s.answers requests = requests.map fun r => ⟨r.1, r.2, (s.generate r.1 r.2).1⟩ := by
  induction requests generalizing s with
  | nil => rfl
  | cons r rest ih =>
    obtain ⟨l, seed⟩ := r
    have halike : s.Alike (s.generate l seed).2 := generate_alike
    have hrest : (s.generate l seed).2.answers rest =
        rest.map fun r => ⟨r.1, r.2, (s.generate r.1 r.2).1⟩ := by
      rw [ih]
      exact List.map_congr_left fun r _ => by rw [halike.generate_eq]
    exact congrArg (List.cons _) hrest

/-- The second program of a pair is asked of the service that the first one leaves. -/
theorem generatePair_eq (s : Service) (seed : UInt64) :
    (s.generatePair seed).1 = ((s.generate .kotlin seed).1, (s.generate .java seed).1) :=
  congrArg (Prod.mk _) generate_alike.generate_eq.symm

/-- **A request is answered as by a service that has answered none**, whatever was asked before and
whether or not it succeeded; and a pair is what two such services answer. -/
theorem answers_after_eq_fresh (config : Config) (strict : Bool) (history : List Request)
    (l : Language) (seed : UInt64) :
    let fresh := new config strict
    let used := fresh.after history
    (used.tryGenerate l seed).1 = (fresh.tryGenerate l seed).1 ∧
      (used.generate l seed).1 = (fresh.generate l seed).1 ∧
      (used.generatePair seed).1 =
        ((fresh.generate .kotlin seed).1, (fresh.generate .java seed).1) := by
  intro fresh used
  have h : used.Alike fresh := ⟨(after_alike history).config.symm, (after_alike history).strict.symm⟩
  refine ⟨h.tryGenerate_eq, h.generate_eq, ?_⟩
  rw [generatePair_eq, h.generate_eq, h.generate_eq]

end Service

end ProgramGen

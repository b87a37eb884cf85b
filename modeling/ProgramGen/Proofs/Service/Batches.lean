import ProgramGen.Cli.Run
import ProgramGen.Proofs.Service.Isolation

/-!
# What a batch covers

A batch goes through consecutive seeds, each in every chosen language, and its record has an entry for
each of these requests, in that order. The seeds are those from the first on, as many as were asked for,
except that the last of all seeds is never among them: the end of the range is a seed as well, and it
stops short of it. A batch that does not reach that seed is complete.
-/

namespace ProgramGen

variable {first count seed : UInt64}

/-! ## Seeds -/

/-- The last of all seeds. -/
def lastSeed : UInt64 := UInt64.ofNat (UInt64.size - 1)

theorem toNat_lastSeed : lastSeed.toNat = UInt64.size - 1 := by decide

/-- The seeds of a batch are consecutive. -/
theorem map_toNat_batchSeeds (first count : UInt64) :
    (batchSeeds first count).map UInt64.toNat =
      List.range' first.toNat (min count.toNat (UInt64.size - 1 - first.toNat)) := by
  have hfirst : first.toNat < UInt64.size := first.toNat_lt_size
  rw [List.range'_eq_map_range, batchSeeds, List.map_map]
  refine List.map_congr_left fun i hi => ?_
  have hi := List.mem_range.mp hi
  have hsum : first.toNat + i < UInt64.size := by omega
  have hoffset : i < UInt64.size := by omega
  show (first + UInt64.ofNat i).toNat = first.toNat + i
  rw [UInt64.toNat_add, UInt64.toNat_ofNat_of_lt' hoffset]
  exact Nat.mod_eq_of_lt hsum

/-- **A batch that ends before the last seed has all its seeds.** -/
theorem batchSeeds_of_fits (h : first.toNat + count.toNat < UInt64.size) :
    (batchSeeds first count).map UInt64.toNat = List.range' first.toNat count.toNat := by
  rw [map_toNat_batchSeeds]
  congr 1
  omega

/-- **Of the range that was asked for the last seed alone is missing.** -/
theorem mem_batchSeeds : seed ∈ batchSeeds first count ↔
    first.toNat ≤ seed.toNat ∧ seed.toNat < first.toNat + count.toNat ∧ seed ≠ lastSeed := by
  have hseed : seed.toNat < UInt64.size := seed.toNat_lt_size
  have hlast : seed = lastSeed ↔ seed.toNat = UInt64.size - 1 := by
    rw [← UInt64.toNat_inj, toNat_lastSeed]
  have hmem : seed ∈ batchSeeds first count ↔
      seed.toNat ∈ (batchSeeds first count).map UInt64.toNat := by
    refine ⟨List.mem_map_of_mem, fun h => ?_⟩
    obtain ⟨other, hother, heq⟩ := List.mem_map.mp h
    exact UInt64.toNat_inj.mp heq ▸ hother
  rw [hmem, map_toNat_batchSeeds, List.mem_range'_1, ne_eq, hlast]
  omega

/-- A batch of the last seed alone is empty. -/
example : batchSeeds lastSeed 1 = [] := by decide

namespace Options

variable {o : Options} {config : Config}

/-! ## Records -/

/-- The program that a request is answered with where it is the only one. -/
def program (o : Options) (config : Config) (l : Language) (seed : UInt64) : Option SourceText :=
  ((Service.new config o.strict).generate l seed).1

/-- The answers of a batch. -/
def answers (o : Options) (config : Config) (first : UInt64) : List Answer :=
  (Service.new config o.strict).answers (o.requests first)

theorem answers_eq (o : Options) (config : Config) (first : UInt64) : o.answers config first =
    (batchSeeds first o.count).flatMap fun seed =>
      o.language.languages.map fun l => ⟨l, seed, o.program config l seed⟩ := by
  rw [answers, Service.answers_eq_map, requests, List.map_flatMap]
  simp only [List.map_map, Function.comp_def, program]

/-- **The record of a batch has an entry for each seed and language**, in the order of the seeds and for
each seed in that of the languages; it names a file where there is a program, and no file otherwise. -/
theorem programs_manifest (o : Options) (config : Config) (first : UInt64) :
    (o.manifest first (o.answers config first)).programs =
      (batchSeeds first o.count).flatMap fun seed => o.language.languages.map fun l =>
        ⟨seed, l, (o.program config l seed).map fun _ => fileName l seed⟩ := by
  rw [manifest, answers_eq, List.map_flatMap]
  simp only [List.map_map, Function.comp_def, Answer.entry, Answer.file?, Option.map_map]

/-- **A batch that ends before the last seed is complete**: its record goes through all seeds that were
asked for, each in every chosen language. -/
theorem manifest_complete (o : Options) (config : Config) (h : first.toNat + o.count.toNat < UInt64.size) :
    ((o.manifest first (o.answers config first)).programs.map fun e => (e.seed.toNat, e.language)) =
      (List.range' first.toNat o.count.toNat).flatMap fun n => o.language.languages.map (n, ·) := by
  rw [programs_manifest, ← batchSeeds_of_fits h, List.flatMap_map, List.map_flatMap]
  simp only [List.map_map, Function.comp_def]

/-- An entry says whether generation succeeded. -/
theorem ok_entry (o : Options) (config : Config) (first : UInt64) :
    ∀ e ∈ (o.manifest first (o.answers config first)).programs,
      e.ok = ((Service.new config o.strict).tryGenerate e.language e.seed).1.toOption.isSome := by
  intro e he
  rw [programs_manifest] at he
  obtain ⟨seed, -, he⟩ := List.mem_flatMap.mp he
  obtain ⟨l, -, rfl⟩ := List.mem_map.mp he
  rw [ManifestEntry.ok, Option.isSome_map]
  rfl

/-! ## Failures -/

theorem failures_manifest (as : List Answer) :
    (o.manifest first as).failures = as.countP fun a => a.program.isNone := by
  rw [Manifest.failures, manifest, List.filter_map, List.length_map, List.countP_eq_length_filter]
  congr 2
  funext a
  simp [Answer.entry, Answer.file?, ManifestEntry.ok, ← Option.not_isSome]

end Options

/-- Each answer that is printed without a program counts once. -/
theorem failures_foldl_print (as : List Answer) (p : Printed) :
    (as.foldl Answer.print p).failures = p.failures + as.countP fun a => a.program.isNone := by
  induction as generalizing p with
  | nil => rfl
  | cons a as ih =>
    rw [List.foldl_cons, ih, List.countP_cons]
    obtain ⟨l, seed, _ | program⟩ := a
    · show p.failures + 1 + _ = _
      simp only [Option.isNone_none, if_true]
      omega
    · rfl

/-- **Printing fails as often as writing**: once for each request without a program. -/
theorem failures_printAnswers (o : Options) (config : Config) (first : UInt64) :
    (printAnswers (o.answers config first)).failures =
        (o.manifest first (o.answers config first)).failures ∧
      (printAnswers (o.answers config first)).failures =
        ((batchSeeds first o.count).flatMap fun seed => o.language.languages.map (·, seed)).countP
          fun r => (o.program config r.1 r.2).isNone := by
  have hcount : (printAnswers (o.answers config first)).failures =
      (o.answers config first).countP fun a => a.program.isNone := by
    rw [printAnswers, failures_foldl_print]
    exact Nat.zero_add _
  refine ⟨hcount.trans (Options.failures_manifest _).symm, hcount.trans ?_⟩
  rw [Options.answers, Service.answers_eq_map, List.countP_map]
  rfl

/-! ## Folders -/

namespace Folder

variable {f g : Folder} {path text dir : String}

/-- A step to a folder that exists depends on the folders alone. -/
theorem step_existing (h : g.folders = f.folders) (here : Place) (s : String) :
    step existing g here s = (step existing f here s).map fun r => (g, r.2) := by
  have hexisting : ∀ p, existing g p = (existing f p).map fun _ => g := by
    intro p
    unfold existing hasFolder
    rw [h]
    cases p.all (· == "..") || f.folders.contains p <;> rfl
  unfold step
  split
  · rfl
  · rfl
  · rfl
  · split
    · rw [hexisting, Option.map_map, Option.map_map]
      rfl
    · rfl

theorem walk_existing (h : g.folders = f.folders) (steps : List String) (here : Place) :
    walk existing steps g here = (walk existing steps f here).map fun r => (g, r.2) := by
  induction steps generalizing here with
  | nil => rfl
  | cons s rest ih =>
    rw [walk, walk, step_existing h]
    -- A step leaves the folder as it is.
    have hsame := step_existing (rfl : f.folders = f.folders) here s
    cases hstep : step existing f here s with
    | none => rfl
    | some r =>
      obtain ⟨f', here'⟩ := r
      rw [hstep] at hsame
      obtain ⟨rfl, -⟩ := Prod.mk.inj (Option.some.inj hsame)
      exact ih here'

theorem fileAt?_congr (h : g.folders = f.folders) : g.fileAt? path = f.fileAt? path := by
  unfold fileAt?
  cases steps? path with
  | none => rfl
  | some steps =>
    show (walk existing _ g [] >>= _) = (walk existing _ f [] >>= _)
    rw [walk_existing h]
    cases walk existing steps.dropLast f [] <;> rfl

/-- **What is written to a file can be read from it.** -/
theorem textAt?_of_writeFile? (h : f.writeFile? path text = some g) : g.textAt? path = some text := by
  rw [writeFile?, Option.bind_eq_bind, Option.bind_eq_some_iff] at h
  obtain ⟨p, hp, h⟩ := h
  split at h
  · cases h
  · have heq := Option.some.inj h
    have hfolders : g.folders = f.folders := by rw [← heq]
    have hfiles : g.files = f.files.filter (·.1 != p) ++ [(p, text)] := by rw [← heq]
    rw [textAt?, fileAt?_congr hfolders, hp]
    show g.file? p = some text
    rw [file?, hfiles, List.find?_append, List.find?_eq_none.mpr]
    · simp
    · intro q hq
      simpa using (List.mem_filter.mp hq).2

/-- The first file decides whether the others are written. -/
theorem writeFiles_cons (dir name text : String) (rest : List (String × String)) :
    (f.writeFile? (joinPath dir name) text = none ∧
        f.writeFiles dir ((name, text) :: rest) = (f, some (joinPath dir name))) ∨
      ∃ g, f.writeFile? (joinPath dir name) text = some g ∧
        f.writeFiles dir ((name, text) :: rest) = g.writeFiles dir rest := by
  cases h : f.writeFile? (joinPath dir name) text with
  | none =>
    refine .inl ⟨rfl, ?_⟩
    rw [writeFiles]
    simp only [h]
  | some g =>
    refine .inr ⟨g, rfl, ?_⟩
    rw [writeFiles]
    simp only [h]

/-- **The last of the files that are written can be read.** -/
theorem textAt?_of_writeFiles {name : String} {files : List (String × String)}
    (h : f.writeFiles dir (files ++ [(name, text)]) = (g, none)) :
    g.textAt? (joinPath dir name) = some text := by
  induction files generalizing f with
  | nil =>
    rcases f.writeFiles_cons dir name text [] with ⟨-, hnone⟩ | ⟨g', hfile, hsome⟩
    · cases hnone.symm.trans h
    · cases hsome.symm.trans h
      exact textAt?_of_writeFile? hfile
  | cons file rest ih =>
    rcases f.writeFiles_cons dir file.1 file.2 (rest ++ [(name, text)]) with ⟨-, hnone⟩ | ⟨g', -, hsome⟩
    · cases hnone.symm.trans h
    · exact ih (hsome.symm.trans h)

end Folder

/-! ## Written batches -/

namespace Options

/-- **A batch that can be written leaves its record in the folder**, and succeeds if there are no failures. -/
theorem write_records {o : Options} {config : Config} {dir : String} {f g h : Folder}
    (hdir : f.makeFolder? dir = some g)
    (hfiles : g.writeFiles dir (o.batchFiles first (o.answers config first)) = (h, none)) :
    let record := o.manifest first (o.answers config first)
    o.write config first dir f = .ofBatch ⟨"", "", record.failures⟩ first h ∧
      h.textAt? (joinPath dir manifestName) = some record.text := by
  refine ⟨?_, Folder.textAt?_of_writeFiles hfiles⟩
  unfold write
  rw [hdir]
  dsimp only
  rw [← answers, hfiles]

end Options

end ProgramGen

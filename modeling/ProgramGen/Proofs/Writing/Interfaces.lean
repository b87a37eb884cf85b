import ProgramGen.Proofs.Writing.Java
import ProgramGen.Proofs.Run.Context

/-!
# Function interfaces in Java

A function type of Java is an interface that the program declares itself, one for each number of parameters,
behind its members. The interfaces that are declared are those of the function types in the uses of the
program. For a closure or a reference to a function these are all that stand in its function type, which is
a little more than what can be read in the text, where its function type is not written.
-/

namespace ProgramGen

open Java (Use)

namespace Java

open Emit

/-- The types of a use are built. -/
def Use.IsBuilt : Use → Prop
  | .type t => Built t
  | .erased t => Built t
  | .signature t => Built t
  | .nested _ => True

/-- What the text shows at a use: the function types in what is written, and the function type that a closure,
a reference to a function or a function inside a body is a value of. -/
def Use.Shows (n : Nat) : Use → Prop
  | .type t => Names n t
  | .erased (.applied c args) => if isArray c then Names n (.applied c args) else IsFunction n (.applied c args)
  | .erased t => Names n t
  | .signature t => IsFunction n t
  | .nested m => m = n

/-- What a use needs: what the text shows, and for closures and references all that stands in their
function types. -/
def Use.Needs (n : Nat) : Use → Prop
  | .signature t => Names n t
  | u => u.Shows n

variable {u : Use} {n : Nat} {strict : Bool} {ds : List Decl}

/-- What is noted at a use is what it needs. -/
theorem Use.IsBuilt.mem_arities (h : u.IsBuilt) : n ∈ u.arities ↔ u.Needs n := by
  cases u with
  | type t => exact Built.mem_arities h
  | signature t => exact Built.mem_arities h
  | nested m => exact List.mem_singleton.trans eq_comm
  | erased t =>
    cases t with
    | applied c args =>
      show n ∈ (if isArray c then _ else _) ↔ if isArray c then _ else _
      split
      · exact Built.mem_arities h
      · cases h with
        | applied hc => exact hc.mem_ownArity
    | _ => exact Built.mem_arities h

/-- What the text shows is needed. -/
theorem Use.Shows.needs (h : u.Shows n) : u.Needs n := by
  cases u with
  | signature t => exact ⟨t, h, .self⟩
  | _ => exact h

/-! ## Declared interfaces -/

/-- The page on which the members of a program are written, behind the line that begins the class. -/
def firstPage : Page := ⟨"class Main \x7b\n", 1, [], []⟩

/-- The lines that declare interfaces. -/
def interfaceLines (ns : List Nat) : String :=
  String.join (ns.map fun n => padding 1 ++ functionInterface n ++ "\n")

theorem runOn_interfaces {p : Page} (hp : p.indent = 1) (ns : List Nat) :
    (ns.forM fun n => Emit.line (functionInterface n)).runOn p =
      (.ok (), { p with out := p.out ++ interfaceLines ns }) := by
  induction ns generalizing p with
  | nil => rw [interfaceLines, List.map_nil, String.join_nil, String.append_empty]; rfl
  | cons n ns ih =>
    have hline : (Emit.line (functionInterface n)).runOn p =
        (.ok (), { p with out := p.out ++ padding p.indent ++ functionInterface n ++ "\n" }) := rfl
    show (Emit.line (functionInterface n) >>= fun _ => ns.forM _).runOn p = _
    rw [runOn_bind, hline]
    refine (ih (p := { p with out := p.out ++ padding p.indent ++ functionInterface n ++ "\n" }) hp).trans ?_
    simp only [interfaceLines, List.map_cons, String.join_cons, String.append_assoc, hp]

/-- What is written behind the members of a program: an empty line, unless there is one, and the interfaces
that are noted. -/
def ending : Emit Unit := do
  match (← get).arities with
  | [] => pure ()
  | arities =>
    Emit.blank
    arities.forM fun n => Emit.line (functionInterface n)

theorem declarations_eq (strict : Bool) (ds : List Decl) :
    declarations strict ds =
      Emit.enclosed ("class " ++ mainClass ++ " \x7b") "\x7d" (do
        members strict (ds.filter fun d => d.kind != .lambda)
        ending) := rfl

theorem runOn_ending {written page : Page} (hindent : written.indent = 1)
    (h : ending.runOn written = (.ok (), page)) :
    page.indent = 1 ∧
      ∃ gap, (gap = "" ∨ gap = "\n") ∧ page.out = written.out ++ gap ++ interfaceLines written.arities := by
  have hget : (get : Emit Page).runOn written = (.ok written, written) := rfl
  rw [ending, runOn_bind, hget] at h
  dsimp only at h
  split at h
  · rename_i harities
    cases h
    refine ⟨hindent, "", .inl rfl, ?_⟩
    rw [harities, interfaceLines, List.map_nil, String.join_nil, String.append_empty, String.append_empty]
  · have hblank : Emit.blank.runOn written =
        (.ok (), if written.out.isEmpty || written.out.endsWith "\n\n" then written
          else { written with out := written.out ++ "\n" }) := rfl
    rw [runOn_bind, hblank] at h
    dsimp only at h
    split at h
    · rw [runOn_interfaces hindent] at h
      cases h
      exact ⟨hindent, "", .inl rfl, by rw [String.append_empty]⟩
    · rw [runOn_interfaces (p := { written with out := written.out ++ "\n" }) hindent] at h
      cases h
      exact ⟨hindent, "\n", .inr rfl, rfl⟩

/-- The text of a program is that of its members, with the interfaces that they need behind it. -/
theorem declarations_run {page : Page} (h : (declarations strict ds).runOn .blank = (.ok (), page)) :
    ∃ (written : Page) (gap : String),
      (members strict (ds.filter fun d => d.kind != .lambda)).runOn firstPage = (.ok (), written) ∧
      (gap = "" ∨ gap = "\n") ∧
      page.out = written.out ++ gap ++ interfaceLines written.arities ++ "\x7d\n" := by
  have hfirst : (Emit.line ("class " ++ mainClass ++ " \x7b")).runOn .blank =
      (.ok (), { firstPage with indent := 0 }) := rfl
  have hindented : ∀ x : Emit Unit, (indented x).runOn { firstPage with indent := 0 } =
      ((x.runOn firstPage).1, { (x.runOn firstPage).2 with indent := (x.runOn firstPage).2.indent - 1 }) :=
    fun _ => rfl
  rw [declarations_eq, enclosed, runOn_bind, hfirst] at h
  dsimp only at h
  rw [runOn_bind, hindented, runOn_bind] at h
  have hleaves : Leaves .extended [] _ (members strict (ds.filter fun d => d.kind != .lambda)) := members_leaves _
  rcases hmembers : (members strict (ds.filter fun d => d.kind != .lambda)).runOn firstPage with ⟨_ | _, written⟩
  · rw [hmembers] at h
    cases h
  rw [hmembers] at h
  dsimp only at h
  rcases hending : ending.runOn written with ⟨_ | _, ended⟩
  · rw [hending] at h
    cases h
  rw [hending] at h
  have hindent : written.indent = 1 := by
    have hpage := hleaves.page firstPage rfl
    rw [hmembers] at hpage
    exact hpage.indent
  obtain ⟨hended, gap, hgap, hout⟩ := runOn_ending hindent hending
  refine ⟨written, gap, rfl, hgap, ?_⟩
  have hlast : page.out = ended.out ++ padding (ended.indent - 1) ++ "\x7d" ++ "\n" := by
    cases h
    rfl
  rw [hlast, hout, hended, show padding (1 - 1) = "" from rfl, String.append_empty, String.append_assoc]
  rfl

end Java

namespace Program

open Emit Java

variable {p : Program} {strict : Bool} {ns : List Nat} {text : String} {n : Nat}

/-- The text is that of the members of a program, and behind it the interfaces for `ns` are declared, which
are those that are noted when the members have been written. -/
def DeclaresInterfaces (p : Program) (strict : Bool) (ns : List Nat) (text : String) : Prop :=
  ∃ (written : Page) (gap : String),
    (Java.members strict p.members).runOn firstPage = (.ok (), written) ∧ written.arities = ns ∧
    (gap = "" ∨ gap = "\n") ∧ text = written.out ++ gap ++ interfaceLines ns ++ "\x7d\n"

theorem exists_declares (hlanguage : p.language = .java) (h : p.source strict = .ok text) :
    ∃ ns, p.DeclaresInterfaces strict ns text := by
  unfold source emit at h
  rw [hlanguage] at h
  rcases hrun : (declarations strict p.topLevel).runOn .blank with ⟨_ | _, page⟩
  · rw [hrun] at h
    cases h
  · rw [hrun] at h
    cases h
    obtain ⟨written, gap, hmembers, hgap, hout⟩ := declarations_run hrun
    exact ⟨written.arities, written, gap, hmembers, rfl, hgap, hout⟩

/-- Each interface is declared once. -/
theorem DeclaresInterfaces.ascending (h : p.DeclaresInterfaces strict ns text) : ns.Pairwise (· < ·) := by
  obtain ⟨written, -, hmembers, rfl, -, -⟩ := h
  have hleaves : Leaves .extended [] _ (Java.members strict p.members) := members_leaves p.members
  have hpage := hleaves.page firstPage rfl
  rw [hmembers] at hpage
  exact hpage.ascending List.Pairwise.nil

theorem DeclaresInterfaces.mem_iff (h : p.DeclaresInterfaces strict ns text) (hbuilt : ∀ u ∈ p.uses, u.IsBuilt) :
    n ∈ ns ↔ ∃ u ∈ p.uses, u.Needs n := by
  obtain ⟨written, -, hmembers, rfl, -, -⟩ := h
  have hnoted : n ∈ written.arities ↔ n ∈ [] ∨ Noted p.uses n :=
    (members_leaves p.members).noted firstPage () written rfl hmembers n
  rw [hnoted, or_iff_right List.not_mem_nil]
  exact exists_congr fun u => and_congr_right fun hu => (hbuilt u hu).mem_arities

/-- The type of functions from numbers to numbers. -/
def numeric : Ty := Language.java.functionType [Language.java.integerType] Language.java.integerType

/-- Of the function type of a closure only the parameters are written. -/
def deferral : Program :=
  ⟨.java, Context.empty.push .global (.var ⟨"deferred", Language.java.functionType [] (.wildcard .invariant none),
    .lambda ⟨"lambda", [], numeric, .const "null" numeric, Language.java.functionType [] numeric, none⟩, true, false⟩)⟩

/-- An interface has no place for constructor arguments. -/
def outlet : Program :=
  ⟨.java, Context.empty.push .global (.cls ⟨"Feed", .interface, [],
    [⟨.simple "Source" [Language.java.anyType], some [.lambda ⟨"lambda", [], Language.java.integerType,
      .const "1" Language.java.integerType, Language.java.functionType [] Language.java.integerType, none⟩]⟩],
    [], [], false⟩)⟩

theorem topLevel_push (l : Language) (d : Decl) :
    (⟨l, Context.empty.push .global d⟩ : Program).topLevel = [d] := by
  show (Context.push _ _ _).declarations .global = _
  rw [Context.declarations_push, Context.declarations, Context.scope_empty]
  rfl

theorem uses_deferral : deferral.uses =
    [.type (Language.java.functionType [] (.wildcard .invariant none)),
      .signature (Language.java.functionType [] numeric)] := by
  unfold uses members deferral
  rw [topLevel_push]
  rfl

theorem built_deferral : ∀ u ∈ deferral.uses, u.IsBuilt := by
  have hinteger : Built Language.java.integerType := .builtin
  have hnumeric : Built numeric :=
    Built.function (by decide) (fun t ht => List.mem_singleton.mp ht ▸ hinteger) hinteger
  have hnone : ∀ t ∈ ([] : List Ty), Built t := fun t ht => absurd ht List.not_mem_nil
  have hunbounded : ∀ t ∈ (none : Option Ty), Built t := fun t ht => absurd ht (Option.not_mem_none t)
  rw [uses_deferral]
  intro u hu
  simp only [List.mem_cons, List.not_mem_nil, or_false] at hu
  rcases hu with rfl | rfl
  · exact Built.function (by decide) hnone (.wildcard hunbounded)
  · exact Built.function (by decide) hnone hnumeric

theorem members_deferral : (Java.members true deferral.members).runOn firstPage =
    (.ok (), ⟨"class Main \x7b\n    static final Function0<?> deferred = () -> null;\n", 1, [], [0, 1]⟩) := by
  unfold members deferral
  rw [topLevel_push]
  rfl

theorem source_deferral :
    ∃ text, deferral.source true = .ok text ∧ deferral.DeclaresInterfaces true [0, 1] text := by
  have hsource : ∃ text, deferral.source true = .ok text := by
    unfold source emit deferral
    rw [topLevel_push]
    exact ⟨_, rfl⟩
  obtain ⟨text, htext⟩ := hsource
  obtain ⟨ns, hns⟩ := exists_declares rfl htext
  obtain ⟨written, gap, hmembers, rfl, hgap, hout⟩ := hns
  rw [members_deferral] at hmembers
  cases hmembers
  exact ⟨_, htext, _, gap, members_deferral, rfl, hgap, hout⟩

end Program

end ProgramGen

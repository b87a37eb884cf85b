import ProgramGen.Proofs.Run.Context
import ProgramGen.Proofs.Run.Logic
import ProgramGen.Proofs.Scope.Members
import ProgramGen.Proofs.Scope.Namespace

/-!
# Attaching a declaration

The member of a class is written into the list of the class, and then registered in its scope. Whatever
is refused at once leaves no trace. Registration alone asks whether the name is taken, when the list has
been written already: a member whose name is taken is refused, and stays in the list.
-/

namespace ProgramGen

variable {s s' : Session} {c : Context} {ns m : Namespace} {d : Decl} {n : String}

/-- The scope is the body of a class of the program, and the declaration can be a member of it. -/
def Context.Hosts (c : Context) (ns : Namespace) (d : Decl) : Prop :=
  d.isMember ∧ ∃ name ∈ ns.className?, ∃ x, c.class? .global name false = some x

/-- The symbol table with the declaration in the list of the class whose body the scope is. -/
def Context.listed (c : Context) (ns : Namespace) (d : Decl) : Context :=
  match ns.className? with
  | some name => c.modifyClass .global name (·.withMember d)
  | none => c

/-- How an attachment can end. -/
inductive Gen.AttachEnds (s : Session) (ns : Namespace) (d : Decl) : Except GenError Unit × Session → Prop where
  /-- Nothing has happened. -/
  | refused (e : GenError) (hhost : ¬ s.context.Hosts ns d) : AttachEnds s ns d (.error e, s)
  /-- The declaration is in the list of a class, and nowhere else. -/
  | torn (hhost : s.context.Hosts ns d) (hbound : (s.context.scope ns).binds d.kind d.name) :
      AttachEnds s ns d (.error (.alreadyBound d.name ns), s.withContext (s.context.listed ns d))
  /-- The declaration is bound, and in the list of the class whose body the scope is. -/
  | done (hhost : ns.className? ≠ none → s.context.Hosts ns d)
      (hfree : (s.context.scope ns).binds d.kind d.name = false) :
      AttachEnds s ns d (.ok (), s.withContext ((s.context.listed ns d).push ns d))

/-- The body of a class is not the top level. -/
theorem Namespace.ne_global_of_className? (h : ns.className? = some n) : ns ≠ .global := by
  rintro rfl
  cases h

namespace Context

theorem add_cases (c : Context) (ns : Namespace) (d : Decl) :
    ((c.scope ns).binds d.kind d.name = false ∧ c.add ns d = .ok (c.push ns d)) ∨
      ((c.scope ns).binds d.kind d.name ∧ c.add ns d = .error (.alreadyBound d.name ns)) := by
  cases h : (c.scope ns).binds d.kind d.name with
  | false => exact .inl ⟨rfl, if_neg (by simp [h])⟩
  | true => exact .inr ⟨rfl, if_pos h⟩

/-- The list of a class is no part of the scope of the class. -/
theorem scope_listed : ns.className? = none ∨ m ≠ .global → (c.listed ns d).scope m = c.scope m := by
  intro h
  unfold listed
  split
  · rename_i name hname
    refine scope_modify_of_ne (h.resolve_left ?_)
    rw [hname]
    simp
  · rfl

theorem scope_listed_self : (c.listed ns d).scope ns = c.scope ns := by
  refine scope_listed ?_
  cases h : ns.className? with
  | none => exact .inl rfl
  | some name => exact .inr (Namespace.ne_global_of_className? h)

end Context

namespace Gen

/-- A class of the program has the member in its list now, or nothing has happened. -/
theorem addMember_cases (s : Session) (name : String) (d : Decl) :
    ((d.isMember ∧ ∃ x, s.context.class? .global name false = some x) ∧
        (addMember name d).runIn s =
          (.ok (), s.withContext (s.context.modifyClass .global name (·.withMember d)))) ∨
      (¬ (d.isMember ∧ ∃ x, s.context.class? .global name false = some x) ∧
        ∃ e, (addMember name d).runIn s = (.error e, s)) := by
  unfold addMember
  rw [runIn_get]
  cases s.context.class? .global name false with
  | none => exact .inr ⟨nofun, _, rfl⟩
  | some x =>
    cases d with
    | field f => exact .inl ⟨⟨rfl, x, rfl⟩, rfl⟩
    | func f => exact .inl ⟨⟨rfl, x, rfl⟩, rfl⟩
    | _ => exact .inr ⟨nofun, _, rfl⟩

/-- **How an attachment ends**, in any state, for any scope and declaration. -/
theorem attach_ends (s : Session) (ns : Namespace) (d : Decl) : AttachEnds s ns d ((attach ns d).runIn s) := by
  have hlisted : ∀ name, ns.className? = some name →
      s.context.modifyClass .global name (·.withMember d) = s.context.listed ns d := fun name hname => by
    rw [Context.listed, hname]
  unfold attach
  cases hname : ns.className? with
  | none =>
    have hsame : s.context.listed ns d = s.context := by rw [Context.listed, hname]
    have hhost : ¬ s.context.Hosts ns d := fun ⟨_, name, h, _⟩ => by rw [hname] at h; cases h
    show AttachEnds s ns d ((addDecl ns d).runIn s)
    rw [addDecl, runIn_updateContext]
    rcases s.context.add_cases ns d with ⟨hfree, hadd⟩ | ⟨-, hadd⟩
    · rw [hadd]
      have hdone := AttachEnds.done (fun h => absurd hname h) hfree
      rwa [hsame] at hdone
    · rw [hadd]
      exact .refused _ hhost
  | some name =>
    show AttachEnds s ns d ((addMember name d >>= fun _ => addDecl ns d).runIn s)
    rw [runIn_bind]
    rcases addMember_cases s name d with ⟨⟨hmember, hclass⟩, hrun⟩ | ⟨hnot, e, hrun⟩
    · have hhost : s.context.Hosts ns d := ⟨hmember, name, hname, hclass⟩
      rw [hrun, hlisted name hname]
      show AttachEnds s ns d ((addDecl ns d).runIn (s.withContext (s.context.listed ns d)))
      rw [addDecl, runIn_updateContext, Session.context_withContext]
      rcases (s.context.listed ns d).add_cases ns d with ⟨hfree, hadd⟩ | ⟨hbound, hadd⟩
      · rw [hadd]
        rw [Context.scope_listed_self] at hfree
        exact .done (fun _ => hhost) hfree
      · rw [hadd]
        rw [Context.scope_listed_self] at hbound
        exact .torn hhost hbound
    · rw [hrun]
      refine .refused e fun ⟨hmember, name', hname', hclass⟩ => hnot ⟨hmember, ?_⟩
      rwa [Option.some.inj (hname.symm.trans hname')]

/-- **An attachment that fails leaves everything as it was**, unless the scope is the body of a class that
has a member of that kind and name. -/
theorem attach_atomic {e : GenError} (hrun : (attach ns d).runIn s = (.error e, s'))
    (hfree : s.context.Hosts ns d → (s.context.scope ns).binds d.kind d.name = false) : s' = s := by
  have hends := attach_ends s ns d
  rw [hrun] at hends
  cases hends with
  | refused => rfl
  | torn hhost hbound => rw [hfree hhost] at hbound; cases hbound

/-- Where a declaration is after it has been attached. -/
structure Recorded (s s' : Session) (ns : Namespace) (d : Decl) : Prop where
  /-- The scope binds it, last in order, and has bound nothing of its kind and name before. -/
  bound : s'.context.declarations ns = s.context.declarations ns ++ [d]
  once : (s'.context.declarations ns).filter (Bindings.isNamed d.kind d.name) = [d]
  /-- The class whose body the scope is has it last in its list, and no other class has changed. -/
  listed : ∀ name ∈ ns.className?, d.isMember ∧
    s'.classes = Context.modifyFirst (·.name == name) (·.withMember d) s.classes
  /-- No other scope has changed. -/
  others : ∀ m, m ≠ ns → ns.className? = none ∨ m ≠ .global → s'.context.scope m = s.context.scope m

/-- **A member is recorded once in each of the two places.** -/
theorem attach_recorded (hrun : (attach ns d).runIn s = (.ok (), s')) : Recorded s s' ns d := by
  have hends := attach_ends s ns d
  rw [hrun] at hends
  cases hends with
  | done hhost hfree =>
    have hdecls : ((s.context.listed ns d).push ns d).declarations ns = s.context.declarations ns ++ [d] := by
      rw [Context.declarations_push, if_pos rfl, Context.declarations, Context.scope_listed_self]
      rfl
    refine ⟨hdecls, ?once, fun name hname => ⟨(hhost ?_).1, ?listed⟩, fun m hm hother => ?_⟩
    case once =>
      have hnone : (s.context.declarations ns).filter (Bindings.isNamed d.kind d.name) = [] :=
        List.filter_eq_nil_iff.mpr fun x hx hnamed => by
          have hbinds : (s.context.scope ns).binds d.kind d.name := List.any_eq_true.mpr ⟨x, hx, hnamed⟩
          rw [hfree] at hbinds
          cases hbinds
      rw [Session.context_withContext, hdecls, List.filter_append, hnone]
      simp [Bindings.isNamed]
    case listed =>
      have hne := Namespace.ne_global_of_className? hname
      show ((s.context.listed ns d).push ns d).classes .global false = _
      rw [Context.classes_global, Context.declarations_push, if_neg (Ne.symm hne), List.append_nil,
        ← Context.classes_global, Context.listed, Option.mem_def.mp hname, Context.classes_modifyClass]
      rfl
    · rw [Option.mem_def.mp hname]
      simp
    · rw [Session.context_withContext, Context.push, Context.scope_set, if_neg (Ne.symm hm),
        Context.scope_listed hother]

/-- **A member whose name is taken parts the two records** of the class, which has it in its list once
more than its scope. -/
theorem attach_torn (hhost : s.context.Hosts ns d) (hns : ns.isWithin .global)
    (hbound : (s.context.scope ns).binds d.kind d.name) (hstep : s.context.InStep) :
    ∃ e s', (attach ns d).runIn s = (.error e, s') ∧ s'.context.scope ns = s.context.scope ns ∧
      ¬ s'.context.InStep := by
  obtain ⟨hmember, name, hname, x, hx⟩ := hhost
  have hrun : (attach ns d).runIn s =
      (.error (.alreadyBound d.name ns), s.withContext (s.context.listed ns d)) := by
    have hends := attach_ends s ns d
    generalize (attach ns d).runIn s = r at hends
    cases hends with
    | torn => rfl
    | refused e hnot => exact absurd ⟨hmember, name, hname, x, hx⟩ hnot
    | done _ hfree => rw [hfree] at hbound; cases hbound
  refine ⟨_, _, hrun, Context.scope_listed_self, fun hstep' => ?_⟩
  obtain ⟨hxname, hxmem⟩ := Context.mem_of_class? hx
  obtain rfl : ns = x.scope := by rw [Namespace.eq_classScope hns hname, ClassDecl.scope, hxname]
  -- The class is the first of its name, so it is the one whose list has grown.
  have hfirst : (s.context.listed x.scope d).class? .global name false = some (x.withMember d) := by
    have hkeep : ∀ y : ClassDecl, y.name = name → (y.withMember d).name = name := fun y hy => by
      cases d <;> exact hy
    rw [Context.listed, Option.mem_def.mp hname]
    show (Context.classes _ _ _).find? _ = _
    rw [Context.classes_modifyClass, Context.find?_modifyFirst hkeep, if_pos rfl]
    show Option.map _ (s.context.class? .global name false) = _
    rw [hx]
    rfl
  have hscope : (x.withMember d).scope = x.scope := by cases d <;> rfl
  have hsame : (s.context.listed x.scope d).declarations x.scope = s.context.declarations x.scope :=
    congrArg Bindings.decls Context.scope_listed_self
  obtain ⟨hfields, hfuncs⟩ := hstep x hxmem
  obtain ⟨hfields', hfuncs'⟩ := hstep' _ (Context.mem_of_class? hfirst).2
  rw [hscope, Session.context_withContext, Context.fieldsIn, hsame, ← Context.fieldsIn, ← hfields] at hfields'
  rw [hscope, Session.context_withContext, Context.funcsIn, hsame, ← Context.funcsIn, ← hfuncs] at hfuncs'
  cases d with
  | field f => simp [ClassDecl.withMember] at hfields'
  | func f => simp [ClassDecl.withMember] at hfuncs'
  | _ => cases hmember

end Gen

end ProgramGen

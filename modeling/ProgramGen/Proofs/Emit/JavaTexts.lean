import ProgramGen.Proofs.Emit.Brackets

/-!
# Brackets in types and headers of Java

The brackets pair up in the text of a type, in the header of a class or function, and in what stands
around the parts of an expression. A narrowed variable is cast, so it is written with the names of the
type that it is narrowed to.
-/

namespace ProgramGen

namespace Java

open Emit BracketKind

variable {q : BracketKind} {e : Expr} {f : FuncDecl} {t : Ty} {ts : List Ty}

/-! ## Types -/

theorem builtinName_paired (l : Language) (k : BuiltinKind) : q.Paired (l.builtinName k) := by
  cases l <;> cases k <;> exact .of_scan fun n cs => by cases q <;> simp [Language.builtinName]

theorem boxedText_paired {text : String} (h : q.Paired text) : q.Paired (boxedText t text) := by
  unfold boxedText
  split
  · exact .of_scan fun n cs => by cases q <;> simp
  · split
    · exact builtinName_paired _ _
    · exact h

theorem appliedText_paired {c : TypeCtor} {texts exact : List String} (hname : q.Paired c.name)
    (htexts : ∀ s ∈ texts, q.Paired s) (hexact : ∀ s ∈ exact, q.Paired s) :
    q.Paired (appliedText c texts exact) := by
  have hcommas := paired_commas htexts
  unfold appliedText
  split
  · have helem := hexact _ List.mem_cons_self
    exact .of_scan fun n cs => by cases q <;> simp [helem]
  · exact .of_scan fun n cs => by cases q <;> simp [hname, hcommas]

mutual

theorem exactText_paired : ∀ {t : Ty}, q.Spelled t → q.Paired (exactText t)
  | .wildcard _ none, _ => builtinName_paired _ _
  | .wildcard _ (some b), h => exactText_paired (t := b) h
  | .applied _ _, h => appliedText_paired (h _ List.mem_cons_self) (exactTexts_paired (spelled_args h))
      (exactTexts_paired (spelled_args h))
  | .builtin _ _ _ _ _, h => boxedText_paired (h _ List.mem_cons_self)
  | .simple _ _, h => h _ List.mem_cons_self
  | .param _, h => h _ List.mem_cons_self
  | .constructor _, h => h _ List.mem_cons_self

theorem exactTexts_paired : ∀ {ts : List Ty}, (∀ t ∈ ts, q.Spelled t) → ∀ s ∈ exactTexts ts, q.Paired s
  | [], _, _, hs => by cases hs
  | t :: ts, h, s, hs => by
    obtain ⟨ht, hts⟩ := List.forall_mem_cons.mp h
    rcases List.mem_cons.mp hs with rfl | hs
    · exact exactText_paired ht
    · exact exactTexts_paired hts s hs

end

mutual

theorem typeText_paired : ∀ {t : Ty}, q.Spelled t → q.Paired (typeText t)
  | .builtin _ _ _ _ _, h => h _ List.mem_cons_self
  | .simple _ _, h => h _ List.mem_cons_self
  | .param _, h => h _ List.mem_cons_self
  | .wildcard _ none, _ => .of_scan fun n cs => by cases q <;> simp [typeText]
  | .wildcard .contravariant (some b), h => by
    have hb := boxedText_paired (t := b) (typeText_paired (t := b) h)
    exact .of_scan fun n cs => by cases q <;> simp [typeText, hb]
  | .wildcard .covariant (some b), h => by
    have hb := boxedText_paired (t := b) (typeText_paired (t := b) h)
    exact .of_scan fun n cs => by cases q <;> simp [typeText, hb]
  | .wildcard .invariant (some b), h => by
    have hb := boxedText_paired (t := b) (typeText_paired (t := b) h)
    exact .of_scan fun n cs => by cases q <;> simp [typeText, hb]
  | .constructor _, h => h _ List.mem_cons_self
  | .applied _ _, h => appliedText_paired (h _ List.mem_cons_self) (argTexts_paired (spelled_args h))
      (exactTexts_paired (spelled_args h))

theorem argTexts_paired : ∀ {ts : List Ty}, (∀ t ∈ ts, q.Spelled t) → ∀ s ∈ argTexts ts, q.Paired s
  | [], _, _, hs => by cases hs
  | t :: ts, h, s, hs => by
    obtain ⟨ht, hts⟩ := List.forall_mem_cons.mp h
    rcases List.mem_cons.mp hs with rfl | hs
    · exact boxedText_paired (typeText_paired ht)
    · exact argTexts_paired hts s hs

end

theorem rawText_paired (h : q.Spelled t) : q.Paired (rawText t) := by
  unfold rawText
  split
  · split
    · exact typeText_paired h
    · exact h _ List.mem_cons_self
  · exact boxedText_paired (typeText_paired h)

theorem useArities_shifts {i : Nat} {ns : List Nat} : Shifts q i i (useArities ns) fun _ => True :=
  .modify fun p => ⟨rfl, "", by simp, paired_empty.moves i⟩

theorem type_paired (h : q.Spelled t) : Pairs q (type t) :=
  useArities_shifts.bind fun _ _ => .pure (typeText_paired h)

theorem typeArg_paired (h : q.Spelled t) : Pairs q (typeArg t) :=
  useArities_shifts.bind fun _ _ => .pure (boxedText_paired (typeText_paired h))

theorem exactType_paired (h : q.Spelled t) : Pairs q (exactType t) :=
  useArities_shifts.bind fun _ _ => .pure (exactText_paired h)

theorem rawType_paired (h : q.Spelled t) : Pairs q (rawType t) := by
  unfold rawType
  split <;> exact useArities_shifts.bind fun _ _ => .pure (rawText_paired h)

theorem returnType_paired (h : q.Spelled t) : Pairs q (returnType t) := by
  unfold returnType
  split
  · exact .pure (.of_scan fun n cs => by cases q <;> simp)
  · exact type_paired h

theorem typeParams_paired {ps : List TypeParam} (h : ∀ w ∈ ps.flatMap TypeParam.words, q.Paired w) :
    Pairs q (typeParams ps) := by
  refine Shifts.bind (.mapM fun p hp => ?_) fun _ hts => .pure (paired_inAngles hts)
  have hwords : ∀ w ∈ p.words, q.Paired w := fun w hw => h w (List.mem_flatMap.mpr ⟨p, hp, hw⟩)
  have hname : q.Paired p.name := hwords _ List.mem_cons_self
  unfold typeParam
  split
  · rename_i b hb
    have hbound : q.Spelled b := fun w hw => hwords w (List.mem_cons_of_mem _ (by simpa [hb] using hw))
    exact (typeArg_paired hbound).bind fun _ hb => .pure (.of_scan fun n cs => by cases q <;> simp [hname, hb])
  · exact .pure hname

theorem callTypeArgs_paired (h : ∀ t ∈ ts, q.Spelled t) : Pairs q (callTypeArgs ts) :=
  Shifts.bind (.mapM fun t ht => exactType_paired (h t ht)) fun _ hts => .pure (paired_inAngles hts)

/-! ## Headers -/

theorem paramList_paired {params : List (String × Ty)} (h : ∀ p ∈ params, q.Paired p.1 ∧ q.Spelled p.2) :
    Pairs q (paramList params) := by
  refine Shifts.bind (.mapM fun p hp => ?_) fun _ hts => .pure (paired_commas hts)
  obtain ⟨hname, htype⟩ := h p hp
  exact (type_paired htype).bind fun _ ht => .pure (.of_scan fun n cs => by cases q <;> simp [ht, hname])

/-- The names of parameters, and the names in their types. -/
theorem params_words {ps : List ParamDecl} (h : ∀ w ∈ ps.flatMap ParamDecl.words, q.Paired w) :
    ∀ p ∈ ps.map fun p => (p.name, p.ty), q.Paired p.1 ∧ q.Spelled p.2 := by
  intro p hp
  obtain ⟨x, hx, rfl⟩ := List.mem_map.mp hp
  have hx : ∀ w ∈ x.words, q.Paired w := fun w hw => h w (List.mem_flatMap.mpr ⟨x, hx, hw⟩)
  exact ⟨hx _ List.mem_cons_self, fun w hw => hx w (List.mem_cons_of_mem _ hw)⟩

theorem methodModifiers_paired {owner : Option ClassKind} : q.Paired (methodModifiers f owner) := by
  unfold methodModifiers
  repeat' split
  all_goals exact .of_scan fun n cs => by cases q <;> simp

/-- The names in the header of a function. -/
structure HeaderNames (q : BracketKind) (f : FuncDecl) : Prop where
  name : q.Paired f.name
  params : ∀ w ∈ f.params.flatMap ParamDecl.words, q.Paired w
  ret : q.Spelled f.ret
  typeParams : ∀ w ∈ f.typeParams.flatMap TypeParam.words, q.Paired w

theorem headerNames (h : ∀ w ∈ f.words, q.Paired w) : HeaderNames q f := by
  rw [FuncDecl.words, List.forall_mem_cons, List.forall_mem_append, List.forall_mem_append] at h
  obtain ⟨hname, ⟨hparams, hret⟩, htypes⟩ := h
  exact ⟨hname, hparams, hret, htypes⟩

theorem methodHeader_paired {owner : Option ClassKind} (h : HeaderNames q f) :
    Pairs q (methodHeader f owner) := by
  have hmodifiers : q.Paired (methodModifiers f owner) := methodModifiers_paired
  have hname := h.name
  refine (typeParams_paired h.typeParams).bind fun types htypes => ?_
  extract_lets types'
  have htypes' : q.Paired types' := paired_empty.ite (.of_scan fun n cs => by cases q <;> simp [htypes])
  clear_value types'
  refine (returnType_paired h.ret).bind fun ret hret => ?_
  refine Shifts.bind (R := q.Paired) (.mapM (R := q.Paired) fun p hp => ?_) fun params hparams => ?_
  · obtain ⟨hname, htype⟩ := params_words h.params (p.name, p.ty) (List.mem_map_of_mem hp)
    exact (type_paired htype).bind fun _ ht => .pure (.of_scan fun n cs => by cases q <;> simp [ht, hname])
  · have hparams := paired_commas hparams
    exact .pure (.of_scan fun n cs => by cases q <;> simp [hmodifiers, htypes', hret, hname, hparams])

theorem classKeyword_paired {kind : ClassKind} {isFinal : Bool} : q.Paired (classKeyword kind isFinal) := by
  cases kind <;> cases isFinal <;> exact .of_scan fun n cs => by cases q <;> simp [classKeyword]

theorem superClause_paired {keyword : String} {names : List String} (hkeyword : q.Paired keyword)
    (h : ∀ s ∈ names, q.Paired s) : q.Paired (superClause keyword names) := by
  have hnames := paired_commas h
  exact paired_empty.ite (.of_scan fun n cs => by cases q <;> simp [hkeyword, hnames])

theorem classFields_shifts {name : String} {isInterface : Bool} {fields : List FieldDecl}
    {superArgs : Option String} (hname : q.Paired name) (hfields : ∀ w ∈ fields.flatMap FieldDecl.words, q.Paired w)
    (hargs : ∀ s ∈ superArgs, q.Paired s) :
    Shifts q 0 0 (classFields name isInterface fields superArgs) fun _ => True := by
  have hfield : ∀ f ∈ fields, q.Paired f.name ∧ q.Spelled f.ty := fun f hf =>
    have hf : ∀ w ∈ f.words, q.Paired w := fun w hw => hfields w (List.mem_flatMap.mpr ⟨f, hf, hw⟩)
    ⟨hf _ List.mem_cons_self, fun w hw => hf w (List.mem_cons_of_mem _ hw)⟩
  unfold classFields
  refine (Shifts.forM fun f hf => ?_).bind fun _ _ => ?_
  · obtain ⟨hname, htype⟩ := hfield f hf
    refine (type_paired htype).bind fun t ht => .line (Paired.moves ?_ 0)
    have hfinal : q.Paired (if f.isFinal then "final " else "") :=
      Paired.ite (.of_scan fun n cs => by cases q <;> simp) paired_empty
    exact .of_scan fun n cs => by cases q <;> simp [hfinal, ht, hname]
  · split
    · extract_lets assigned constructor
      have hassigned : ∀ u, Shifts q 0 0 (assigned u) fun _ => True := fun u => .forM fun f hf => by
        have hname := (hfield f hf).1
        exact .line (Paired.moves (.of_scan fun n cs => by cases q <;> simp [hname]) 0)
      have hconstructor : ∀ u, Shifts q 0 0 (constructor u) fun _ => True := fun u => by
        have hparams : ∀ p ∈ fields.map fun f => (f.name, f.ty), q.Paired p.1 ∧ q.Spelled p.2 := fun p hp => by
          obtain ⟨f, hf, rfl⟩ := List.mem_map.mp hp
          exact hfield f hf
        refine (paramList_paired hparams).bind fun ps hps => ?_
        have hfirst : q.Moves 0 q.inBraces (name ++ "(" ++ ps ++ ") \x7b") := fun n cs => by
          cases q <;> simp [hname, hps]
        refine .enclosed hfirst footer_moves ?_
        split
        · rename_i args _
          have hargs := hargs args rfl
          exact (Shifts.line (Paired.moves (.of_scan fun n cs => by cases q <;> simp [hargs]) 0)).bind
            fun u _ => hassigned u
        · exact hassigned ()
      split
      · exact Shifts.blank.bind fun u _ => hconstructor u
      · exact hconstructor ()
    · exact .pure trivial

/-! ## Expressions in their places -/

theorem primitiveName_paired {k : BuiltinKind} {name : String} (h : Language.java.primitiveName? k = some name) :
    q.Paired name := by
  cases k <;> cases h <;> exact .of_scan fun n cs => by cases q <;> simp

/-- A test narrows a variable to a type with names in which the brackets pair up. -/
theorem narrowed_shifts {α : Type} {i j : Nat} {cond : Expr} {x : Emit α} {Q : α → Prop}
    (hcond : ∀ w ∈ cond.words, q.Paired w) (h : Shifts q i j x Q) : Shifts q i j (narrowed cond x) Q := by
  cases cond with
  | instanceOf var target t =>
    intro p a p' hp hrun
    have hnarrowed : (narrowed (.instanceOf var target t) x).runOn p =
        ((x.runOn { p with casts := (var, target) :: p.casts }).1,
          { (x.runOn { p with casts := (var, target) :: p.casts }).2 with
            casts := (x.runOn { p with casts := (var, target) :: p.casts }).2.casts.tail }) := rfl
    have htarget : q.Spelled target := fun w hw => hcond w (List.mem_cons_of_mem _ (List.mem_append_left _ hw))
    rcases hx : x.runOn { p with casts := (var, target) :: p.casts } with ⟨r, page⟩
    rw [hnarrowed, hx] at hrun
    cases hrun
    obtain ⟨htidy, ha, ht⟩ := h { p with casts := (var, target) :: p.casts } a page
      (List.forall_mem_cons.mpr ⟨htarget, hp⟩) hx
    exact ⟨fun c hc => htidy c (List.mem_of_mem_tail hc), ha, ht⟩
  | _ => exact h

theorem variableText_paired {name : String} (hname : q.Paired name) : Pairs q (variableText name) := by
  refine .get fun p hp => ?_
  split
  · rename_i t hfind
    have ht : q.Spelled t := hp _ (List.mem_of_find?_eq_some hfind)
    exact (type_paired ht).bind fun _ ht => .pure (.of_scan fun n cs => by cases q <;> simp [ht, hname])
  · exact .pure hname

theorem asReceiver_paired {text : Emit String} (hwords : ∀ w ∈ e.words, q.Paired w) (h : Pairs q text) :
    Pairs q (asReceiver e text) := by
  cases e with
  | arith op l r t cast =>
    unfold asReceiver
    dsimp only
    split
    · exact (type_paired (t := t) hwords).bind fun _ ht => h.bind fun _ htext =>
        .pure (.of_scan fun n cs => by cases q <;> simp [ht, htext])
    · exact h
  | _ => exact h

/-- The parameter types and the result type of a function type are written with names of it. -/
theorem functionSignature?_spelled {types : List Ty} {ret : Ty} (h : q.Spelled t)
    (hsig : t.functionSignature? = some (types, ret)) : ∀ t ∈ types, q.Spelled t := by
  cases t with
  | applied c args =>
    obtain ⟨-, hsig⟩ := Option.ite_none_right_eq_some.mp hsig
    obtain ⟨last, -, heq⟩ := Option.map_eq_some_iff.mp hsig
    cases heq
    exact fun t ht => spelled_args h t (List.mem_of_mem_dropLast ht)
  | _ => cases hsig

theorem funcRefText_paired {receiver name : String} (hreceiver : q.Paired receiver) (hname : q.Paired name)
    (h : q.Spelled t) : Pairs q (funcRefText receiver name t) := by
  have hplain : q.Paired (receiver ++ "::" ++ name) :=
    .of_scan fun n cs => by cases q <;> simp [hreceiver, hname]
  refine useArities_shifts.bind fun _ _ => ?_
  split
  · rename_i types ret hsig
    split
    · have hnamed : ∀ p ∈ types.mapIdx fun i t => ("p" ++ toString i, t), q.Paired p.1 ∧ q.Spelled p.2 := by
        intro p hp
        obtain ⟨i, hi, rfl⟩ := List.mem_mapIdx.mp hp
        have hletter : q.Paired "p" := .of_scan fun n cs => by cases q <;> simp
        exact ⟨hletter.append (paired_toString i), functionSignature?_spelled h hsig _ (List.getElem_mem hi)⟩
      extract_lets named
      have hnames : q.Paired (commas (named.map (·.1))) := paired_commas fun s hs => by
        obtain ⟨p, hp, rfl⟩ := List.mem_map.mp hs
        exact (hnamed p hp).1
      have hlist : Pairs q (paramList named) := paramList_paired hnamed
      refine hlist.bind fun _ hparams => .pure ?_
      clear_value named
      exact .of_scan fun n cs => by cases q <;> simp [hparams, hreceiver, hname, hnames]
    · exact .pure hplain
  · exact .pure hplain

theorem anyType_spelled : q.Spelled Language.java.anyType := fun w hw => by
  obtain rfl := List.mem_singleton.mp hw
  exact builtinName_paired _ _

/-- The first argument of a type is written with names of it; where there is none, the top type is. -/
theorem headArg_spelled (h : q.Spelled t) : q.Spelled (t.args.head?.getD Language.java.anyType) := by
  cases t with
  | applied c args =>
    cases args with
    | nil => exact anyType_spelled
    | cons a as => exact spelled_args h a List.mem_cons_self
  | _ => exact anyType_spelled

mutual

theorem withoutWildcards_spelled : ∀ {t : Ty}, q.Spelled t → q.Spelled (t.withoutWildcards Language.java.anyType)
  | .wildcard _ (some b), h => withoutWildcards_spelled (t := b) h
  | .wildcard _ none, _ => anyType_spelled
  | .applied _ _, h => List.forall_mem_cons.mpr
      ⟨h _ List.mem_cons_self, withoutWildcardsList_spelled (spelled_args h)⟩
  | .builtin .., h | .simple .., h | .param _, h | .constructor _, h => h

theorem withoutWildcardsList_spelled : ∀ {ts : List Ty}, (∀ t ∈ ts, q.Spelled t) →
    ∀ w ∈ Ty.namesOf (Ty.withoutWildcardsList ts Language.java.anyType), q.Paired w
  | [], _, _, hw => by cases hw
  | t :: ts, h, w, hw => by
    obtain ⟨ht, hts⟩ := List.forall_mem_cons.mp h
    rcases List.mem_append.mp hw with hw | hw
    · exact withoutWildcards_spelled ht w hw
    · exact withoutWildcardsList_spelled hts w hw

end

theorem arrayText_paired {values : List String} (h : q.Spelled t) (hvalues : ∀ s ∈ values, q.Paired s) :
    Pairs q (arrayText t values) := by
  have hcommas := paired_commas hvalues
  unfold arrayText
  extract_lets elem elem'
  have helem : q.Spelled elem := headArg_spelled h
  have helem' : q.Spelled elem' := withoutWildcards_spelled helem
  clear_value elem'
  split
  · refine (exactType_paired helem).bind fun name hname => .pure ?_
    exact Paired.ite (.of_scan fun n cs => by cases q <;> simp [hname])
      (.of_scan fun n cs => by cases q <;> simp [hname, hcommas])
  · split
    · exact (type_paired helem').bind fun _ hname =>
        .pure (.of_scan fun n cs => by cases q <;> simp [hname, hcommas])
    · exact (exactType_paired helem').bind fun _ hexact => (rawType_paired helem').bind fun _ hraw =>
        .pure (.of_scan fun n cs => by cases q <;> simp [hexact, hraw, hcommas])
    · exact (exactType_paired helem').bind fun _ hexact =>
        .pure (.of_scan fun n cs => by cases q <;> simp [hexact, hcommas])

/-! ## The class around a program -/

theorem mainClass_paired : q.Paired mainClass := .of_scan fun n cs => by cases q <;> simp [mainClass]

theorem functionInterface_paired (arity : Nat) : q.Paired (functionInterface arity) := by
  unfold functionInterface
  extract_lets names params
  have hnames : ∀ n ∈ names, q.Paired n := fun n hn => by
    obtain ⟨i, -, rfl⟩ := List.mem_map.mp hn
    exact paired_toString _
  have hparams : q.Paired (commas params) := paired_commas fun s hs => by
    obtain ⟨n, hn, rfl⟩ := List.mem_map.mp hs
    have hn := hnames n hn
    exact .of_scan fun m cs => by cases q <;> simp [hn]
  have htypes : q.Paired (commas (names.map ("A" ++ ·) ++ ["R"])) := paired_commas fun s hs => by
    rcases List.mem_append.mp hs with hs | hs
    · obtain ⟨n, hn, rfl⟩ := List.mem_map.mp hs
      have hn := hnames n hn
      exact .of_scan fun m cs => by cases q <;> simp [hn]
    · cases List.mem_singleton.mp hs
      exact .of_scan fun m cs => by cases q <;> simp
  have harity := paired_toString (k := q) arity
  generalize toString arity = arity' at harity
  generalize commas (names.map ("A" ++ ·) ++ ["R"]) = types at htypes
  exact .of_scan fun n cs => by cases q <;> simp [harity, htypes, hparams]

end Java

end ProgramGen

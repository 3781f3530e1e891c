import WhileLang.Proofs.Running.Limits
import WhileLang.Proofs.Term.BindingOrder
import WhileLang.Proofs.Term.Translation

/-!
# Resolution of names

Names are resolved twice: when a program is translated, in all its definitions, and when it runs, at
the calls that are reached.  The first resolution succeeds just if every call names a defined
function, and then the second one never fails.

Main definitions:

- Predicate {lit}`Resolves`: what looking up names makes of a computation.
- Predicate {lit}`Program.IsResolved`: every name that a program calls is defined.
- Function {lit}`Program.lookedUp`: the names that the translation looks up.

Main results:

- Theorem {lit}`Program.toTerm_resolves`: the translation fails only at a name it looks up.
- Theorem {lit}`Program.mem_bindingOrder`: functions are defined because they are there, or called.
- Theorem {lit}`Program.resolution_agrees`: the translation and the run resolve the same names.
-/

namespace WhileLang

/-! ## Looking up names -/

/-- A computation looks up names: it succeeds if all are defined, and else reports another one. -/
def Resolves {α : Type} (program : Program) (names : List String) :
    Except SemanticError α → Prop
  | .ok _ => ∀ name ∈ names, program.defines name = true
  | .error error =>
    ∃ name ∈ names, program.defines name = false ∧ error = .unknownFunction name

namespace Resolves

variable {α β : Type} {program : Program} {names : List String}

theorem nothing (value : α) : Resolves program [] (.ok value : Except SemanticError α) :=
  nofun

/-- Names can be looked up one after the other. -/
theorem bind {others : List String} {first : Except SemanticError α}
    {next : α → Except SemanticError β} (h : Resolves program names first)
    (hnext : ∀ value, Resolves program others (next value)) :
    Resolves program (names ++ others) (first >>= next) := by
  cases first with
  | error error =>
    obtain ⟨name, hmem, hundefined⟩ := h
    exact ⟨name, List.mem_append_left _ hmem, hundefined⟩
  | ok value =>
    have hvalue := hnext value
    have hbind : (Except.ok value >>= next) = next value := rfl
    rw [hbind]
    cases hresult : next value with
    | error error =>
      rw [hresult] at hvalue
      obtain ⟨name, hmem, hundefined⟩ := hvalue
      exact ⟨name, List.mem_append_right _ hmem, hundefined⟩
    | ok result =>
      rw [hresult] at hvalue
      intro name hmem
      exact (List.mem_append.1 hmem).elim (h name) (hvalue name)

theorem map {first : Except SemanticError α} (h : Resolves program names first) (f : α → β) :
    Resolves program names (first >>= fun value => pure (f value)) := by
  rw [← names.append_nil]
  exact h.bind fun value => nothing (f value)

/-- A name that is defined can be looked up besides. -/
theorem cons {name : String} {result : Except SemanticError α} (h : Resolves program names result)
    (hname : program.defines name = true) : Resolves program (name :: names) result := by
  cases result with
  | error error =>
    obtain ⟨other, hmem, hundefined⟩ := h
    exact ⟨other, List.mem_cons_of_mem _ hmem, hundefined⟩
  | ok value =>
    intro other hmem
    rcases List.mem_cons.1 hmem with rfl | hmem
    · exact hname
    · exact h other hmem

/-- The order in which names are looked up does not matter. -/
theorem congr {others : List String} {result : Except SemanticError α}
    (h : Resolves program names result) (hsame : ∀ name, name ∈ names ↔ name ∈ others) :
    Resolves program others result := by
  cases result with
  | error error =>
    obtain ⟨name, hmem, hundefined⟩ := h
    exact ⟨name, (hsame name).1 hmem, hundefined⟩
  | ok value => exact fun name hmem => h name ((hsame name).2 hmem)

/-- A computation ends well just if all names are defined. -/
theorem exists_ok_iff {result : Except SemanticError α} (h : Resolves program names result) :
    (∃ value, result = .ok value) ↔ ∀ name ∈ names, program.defines name = true := by
  cases result with
  | ok value => exact ⟨fun _ => h, fun _ => ⟨value, rfl⟩⟩
  | error error =>
    obtain ⟨name, hmem, hundefined, -⟩ := h
    refine ⟨nofun, fun hall => ?_⟩
    rw [hall name hmem] at hundefined
    cases hundefined

end Resolves

/-! ## The translation -/

section

variable {program : Program} {scope : String}

theorem Term.binaryOf_resolves {operator : String} {first second : List String}
    {left right : Except SemanticError Term} (hleft : Resolves program first left)
    (hright : Resolves program second right) :
    Resolves program (first ++ second) (binaryOf operator left right) :=
  hleft.bind fun l => hright.map (Term.binary operator l)

theorem Expr.applyTo_resolves {args : List Expr}
    (h : ∀ arg ∈ args, Resolves program arg.callees (arg.toTerm program scope)) (function : Term) :
    Resolves program (callees.calleesOfArgs args)
      (toTerm.applyTo program scope function args) := by
  induction args generalizing function with
  | nil => exact .nothing function
  | cons arg args ih =>
    rw [List.forall_mem_cons] at h
    exact h.1.bind fun term => ih h.2 (.app function term)

theorem Expr.toTerm_resolves (program : Program) (scope : String) (expr : Expr) :
    Resolves program expr.callees (expr.toTerm program scope) := by
  induction expr with
  | literal value => exact .nothing _
  | var name => exact .nothing _
  | math op left right ihl ihr | compare op left right ihl ihr | logic op left right ihl ihr =>
    exact Term.binaryOf_resolves ihl ihr
  | not operand ih => exact ih.map (Term.app (.global "!"))
  | call name args ih =>
    unfold toTerm
    cases hname : program.defines name with
    | true => exact (applyTo_resolves ih _).cons hname
    | false => exact ⟨name, List.mem_cons_self, hname, rfl⟩

theorem Stmt.toTerm_resolves (program : Program) (scope : String) (stmt : Stmt) :
    Resolves program stmt.callees (stmt.toTerm program scope) := by
  induction stmt with
  | assign name value =>
    exact Term.binaryOf_resolves (.nothing _) (value.toTerm_resolves program scope)
  | seq first second ihf ihs => exact Term.binaryOf_resolves ihf ihs
  | ifThen condition body ih | loop condition body ih =>
    exact Term.binaryOf_resolves (condition.toTerm_resolves program scope) ih
  | ifElse condition body alternative ihb iha =>
    have hchosen : Resolves program (condition.callees ++ body.callees)
        (Term.binaryOf "if-else" (condition.toTerm program scope) (body.toTerm program scope)) :=
      Term.binaryOf_resolves (condition.toTerm_resolves program scope) ihb
    have hboth := hchosen.bind fun chosen => iha.map (Term.app chosen)
    rwa [List.append_assoc] at hboth

theorem FunctionDef.toTerm_resolves (program : Program) (function : FunctionDef) :
    Resolves program function.callees (function.toTerm program) := by
  -- The result is translated before the body.
  have horder (name : String) : name ∈ function.callees ↔
      name ∈ function.result.callees ++ function.body.elim [] Stmt.callees := by
    simp only [callees, List.mem_append, or_comm]
  refine Resolves.congr ?_ fun name => (horder name).symm
  unfold toTerm
  refine (function.result.toTerm_resolves program function.name).bind fun result => ?_
  cases function.body with
  | none => exact .nothing _
  | some body =>
    exact (body.toTerm_resolves program function.name).map fun first =>
      function.abstract (.binary ";" first (.app (.global "return") result))

end

namespace Program

variable {program : Program}

/-- Names to look up for the definitions of functions: their own, and those that they call. -/
def lookedUp (program : Program) (names : List String) : List String :=
  names.flatMap fun name => name :: (program.function? name).elim [] FunctionDef.callees

theorem mem_lookedUp {names : List String} {name : String} :
    name ∈ program.lookedUp names ↔
      name ∈ names ∨ ∃ caller ∈ names, program.Calls caller name := by
  have hcalls (caller : String) :
      name ∈ (program.function? caller).elim [] FunctionDef.callees
        ↔ program.Calls caller name := by
    unfold Calls
    cases program.function? caller with
    | none => simp
    | some function => simp
  simp only [lookedUp, List.mem_flatMap, List.mem_cons, hcalls]
  constructor
  · rintro ⟨caller, hmem, rfl | h⟩
    · exact .inl hmem
    · exact .inr ⟨caller, hmem, h⟩
  · rintro (hmem | ⟨caller, hmem, h⟩)
    · exact ⟨name, hmem, .inl rfl⟩
    · exact ⟨caller, hmem, .inr h⟩

/-- The effective definition of a name is looked up, and then translated. -/
theorem effective_resolves (program : Program) (name : String) :
    Resolves program (program.lookedUp [name])
      (program.effective name >>= fun function => function.toTerm program) := by
  have hnames : program.lookedUp [name]
      = name :: (program.function? name).elim [] FunctionDef.callees := by
    simp [lookedUp]
  rw [hnames]
  cases hfunction : program.effective name with
  | error error => exact ⟨name, List.mem_cons_self, effective_eq_error.1 hfunction⟩
  | ok function =>
    have hsome := effective_eq_ok.1 hfunction
    rw [hsome]
    exact (function.toTerm_resolves program).cons (defines_iff_effective.2 ⟨function, hfunction⟩)

theorem defineAll_resolves (program : Program) (body : Term) (names : List String) :
    Resolves program (program.lookedUp names) (program.defineAll body names) := by
  induction names with
  | nil => exact .nothing body
  | cons name names ih =>
    have hdefine (rest : Term) :
        Resolves program (program.lookedUp [name]) (program.define name rest) := by
      have hboth := (program.effective_resolves name).map fun term =>
        Term.letIn (.global name) term rest
      rwa [bind_assoc] at hboth
    refine (ih.bind hdefine).congr fun other => ?_
    simp only [lookedUp, List.flatMap_cons, List.flatMap_nil, List.mem_append, List.append_nil]
    exact or_comm

/-- The translation looks up the entry point and all functions that are defined in front of it. -/
theorem toTerm_resolves (program : Program) :
    Resolves program (program.lookedUp (entryPoint :: program.bindingOrder)) program.toTerm := by
  have hnames : program.lookedUp (entryPoint :: program.bindingOrder)
      = program.lookedUp [entryPoint] ++ program.lookedUp program.bindingOrder := by
    simp [lookedUp]
  rw [hnames]
  have hboth := (program.effective_resolves entryPoint).bind fun main =>
    (program.defineAll_resolves main program.bindingOrder).map fun whole =>
      ProgramTerm.mk whole main program.bindingOrder
  rwa [bind_assoc] at hboth

/-! ## Names in the order of definitions -/

/-- A search lists what was listed before, what it was made for, and what is called. -/
def ListsCalled (program : Program) (names : List String) (search after : CallSearch) : Prop :=
  ∀ name ∈ after.order, name ∈ search.order ∨ name ∈ names ∨ ∃ caller, program.Calls caller name

theorem foldl_visit_listsCalled {depth : Nat}
    (h : ∀ search name, program.ListsCalled [name] search (program.visit depth search name))
    (names : List String) (search : CallSearch) :
    program.ListsCalled names search (names.foldl (program.visit depth) search) := by
  induction names generalizing search with
  | nil => exact fun name hmem => .inl hmem
  | cons first names ih =>
    intro name hmem
    rcases ih _ name hmem with hmem | hmem | hcalled
    · rcases h search first name hmem with hmem | hmem | hcalled
      · exact .inl hmem
      · exact .inr (.inl (List.mem_singleton.1 hmem ▸ List.mem_cons_self))
      · exact .inr (.inr hcalled)
    · exact .inr (.inl (List.mem_cons_of_mem _ hmem))
    · exact .inr (.inr hcalled)

theorem visit_listsCalled (program : Program) (depth : Nat) (search : CallSearch) (name : String) :
    program.ListsCalled [name] search (program.visit depth search name) := by
  induction depth generalizing search name with
  | zero => exact fun _ hmem => .inl hmem
  | succ depth ih =>
    unfold visit
    split
    · exact fun _ hmem => .inl hmem
    · intro other hmem
      rcases List.mem_append.1 hmem with hmem | hmem
      · cases hfunction : program.function? name with
        | none =>
          rw [hfunction] at hmem
          exact .inl hmem
        | some function =>
          rw [hfunction] at hmem
          rcases foldl_visit_listsCalled ih _ _ other hmem with hmem | hmem | hcalled
          · exact .inl hmem
          · exact .inr (.inr ⟨name, function, hfunction, hmem⟩)
          · exact .inr (.inr hcalled)
      · exact .inr (.inl hmem)

theorem defines_iff {name : String} :
    program.defines name = true ↔ name ∈ program.functions.map (·.name) := by
  unfold defines function?
  rw [List.findRev?_eq_find?_reverse, List.find?_isSome]
  simp only [List.mem_reverse, List.mem_map, beq_iff_eq]

/-- A function is defined before the entry point because the program has it, or calls it. -/
theorem mem_bindingOrder {name : String} (h : name ∈ program.bindingOrder) :
    program.defines name = true ∨ ∃ caller, program.Calls caller name := by
  have hlists : program.ListsCalled (program.functions.map (·.name)) {}
      ((program.functions.map (·.name)).foldl
        (program.visit (program.functions.length + 2)) {}) :=
    foldl_visit_listsCalled (program.visit_listsCalled _) _ _
  rcases hlists name h with hmem | hmem | hcalled
  · cases hmem
  · exact .inl (defines_iff.2 hmem)
  · exact .inr hcalled

/-- If all that is called is defined, the functions but the entry point are listed, and no others. -/
theorem mem_bindingOrder_iff
    (h : ∀ {caller callee}, program.Calls caller callee → program.defines callee = true)
    {name : String} :
    name ∈ program.bindingOrder ↔ program.defines name = true ∧ name ≠ entryPoint := by
  constructor
  · intro hmem
    refine ⟨(mem_bindingOrder hmem).elim id fun ⟨caller, hcalls⟩ => h hcalls, ?_⟩
    exact ne_of_mem_of_not_mem hmem program.bindingOrder_sound.main
  · rintro ⟨hdefines, hmain⟩
    obtain ⟨function, hfunction⟩ := defines_iff_effective.1 hdefines
    exact program.bindingOrder_sound.complete (effective_eq_ok.1 hfunction) hmain

/-! ## Both resolutions -/

/-- The entry point is defined, and so is every function that an effective definition calls. -/
structure IsResolved (program : Program) : Prop where
  main : program.defines entryPoint = true
  calls {caller callee : String} : program.Calls caller callee → program.defines callee = true

/-- All names that the translation looks up are defined just if the program is resolved. -/
theorem isResolved_iff : program.IsResolved ↔
    ∀ name ∈ program.lookedUp (entryPoint :: program.bindingOrder),
      program.defines name = true := by
  simp only [mem_lookedUp]
  constructor
  · rintro h name (hmem | ⟨caller, -, hcalls⟩)
    · rcases List.mem_cons.1 hmem with rfl | hmem
      · exact h.main
      · exact (mem_bindingOrder hmem).elim id fun ⟨caller, hcalls⟩ => h.calls hcalls
    · exact h.calls hcalls
  · intro h
    refine ⟨h _ (.inl List.mem_cons_self), fun {caller callee} hcalls => ?_⟩
    refine h callee (.inr ⟨caller, ?_, hcalls⟩)
    obtain ⟨function, hfunction, -⟩ := hcalls
    by_cases hmain : caller = entryPoint
    · exact hmain ▸ List.mem_cons_self
    · exact List.mem_cons_of_mem _ (program.bindingOrder_sound.complete hfunction hmain)

/-- The programs that are translated are those that are resolved. -/
theorem exists_toTerm_iff : (∃ term, program.toTerm = .ok term) ↔ program.IsResolved :=
  program.toTerm_resolves.exists_ok_iff.trans isResolved_iff.symm

/-- All functions of a resolved program are defined before its entry point, and nothing else. -/
theorem IsResolved.mem_bindingOrder_iff (h : program.IsResolved) {name : String} :
    name ∈ program.bindingOrder ↔ program.defines name = true ∧ name ≠ entryPoint :=
  Program.mem_bindingOrder_iff h.calls

/-- A program that is not translated lacks its entry point, or a function that it calls. -/
theorem toTerm_eq_error {error : SemanticError} (h : program.toTerm = .error error)
    (hmain : program.defines entryPoint = true) :
    ∃ caller callee, program.Calls caller callee ∧ program.defines callee = false
      ∧ error = .unknownFunction callee := by
  have hresolves := program.toTerm_resolves
  rw [h] at hresolves
  obtain ⟨name, hmem, hundefined, rfl⟩ := hresolves
  have hcalled : ∃ caller, program.Calls caller name := by
    rcases mem_lookedUp.1 hmem with hmem | ⟨caller, -, hcalls⟩
    · rcases List.mem_cons.1 hmem with rfl | hmem
      · rw [hmain] at hundefined
        cases hundefined
      · refine (mem_bindingOrder hmem).resolve_left ?_
        rw [hundefined]
        exact Bool.false_ne_true
    · exact ⟨caller, hcalls⟩
  obtain ⟨caller, hcalls⟩ := hcalled
  exact ⟨caller, name, hcalls, hundefined, rfl⟩

/-- The runs of a resolved program do not end because a function is unknown. -/
theorem IsResolved.run_not_unknown (h : program.IsResolved) (maxDepth : Nat) (name : String) :
    ¬ program.Ends maxDepth (.error (.unknownFunction name)) := by
  rintro ⟨fuel, hfuel⟩
  rcases run?_error hfuel with hmain | ⟨main, ⟨task, stack⟩, -, -, hraises, hbelongs⟩
  · obtain ⟨hundefined, -⟩ := effective_eq_error.1 hmain
    rw [h.main] at hundefined
    cases hundefined
  · obtain ⟨args, rfl, hundefined⟩ := hraises.of_unknownFunction
    obtain ⟨caller, hcalls⟩ := hbelongs.calls name List.mem_cons_self
    have hprogram : stack.program = program := hbelongs.program_eq
    rw [hprogram, h.calls hcalls] at hundefined
    cases hundefined

/--
Names are resolved in the same way when a program is translated and when it runs.  The translation
succeeds just if the entry point and all functions that effective definitions call are defined.
Otherwise it reports the entry point if that is missing, and else some function that is called
without being defined.  Where it succeeds, no run ends because a function is unknown.
-/
theorem resolution_agrees (program : Program) :
    ((∃ term, program.toTerm = .ok term) ↔ program.IsResolved)
      ∧ (program.defines entryPoint = false →
          program.toTerm = .error (.unknownFunction entryPoint))
      ∧ (∀ error, program.defines entryPoint = true → program.toTerm = .error error →
          ∃ caller callee, program.Calls caller callee ∧ program.defines callee = false
            ∧ error = .unknownFunction callee)
      ∧ ((∃ term, program.toTerm = .ok term) → ∀ maxDepth name,
          ¬ program.Ends maxDepth (.error (.unknownFunction name))) := by
  refine ⟨exists_toTerm_iff, fun hmain => ?_, fun error hmain h => toTerm_eq_error h hmain,
    fun h => (exists_toTerm_iff.1 h).run_not_unknown⟩
  have hmissing := effective_eq_error.2 ⟨hmain, rfl⟩
  unfold toTerm
  rw [hmissing]
  rfl

/-- A function that is never called, and calls one that is not there. -/
def withSpare : Program where
  functions := [
    { name := "spare"
      params := []
      body := none
      result := .call "missing" [] },
    { name := "main"
      params := []
      body := none
      result := .int 1 }]

theorem resolution_agrees_examples :
    (¬ withSpare.IsResolved ∧ ∃ caller callee, withSpare.Calls caller callee
        ∧ withSpare.defines callee = false
        ∧ SemanticError.unknownFunction "missing" = .unknownFunction callee)
      ∧ (⟨[]⟩ : Program).toTerm = .error (.unknownFunction "main")
      ∧ countdown.IsResolved
      ∧ ∀ maxDepth name, ¬ countdown.Ends maxDepth (.error (.unknownFunction name)) := by
  have hspare : withSpare.toTerm = .error (.unknownFunction "missing") := by decide +kernel
  have hcountdown : ∃ term, countdown.toTerm = .ok term :=
    countdown.toTerm_resolves.exists_ok_iff.2 (by decide +kernel)
  refine ⟨⟨fun h => ?_, ?_⟩, ?_, ?_, ?_⟩
  · obtain ⟨term, hterm⟩ := (resolution_agrees withSpare).1.2 h
    rw [hspare] at hterm
    cases hterm
  · exact (resolution_agrees withSpare).2.2.1 _ (by decide) hspare
  · exact (resolution_agrees ⟨[]⟩).2.1 (by decide)
  · exact (resolution_agrees countdown).1.1 hcountdown
  · exact (resolution_agrees countdown).2.2.2 hcountdown

end Program

end WhileLang

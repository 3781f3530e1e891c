import WhileLang.Proofs.Running.CallSites
import WhileLang.Proofs.Typing.ProgramWalks

/-!
# Numbers of arguments

Calls are typed as applications to one argument after the other, and so a call may pass another
number of arguments than its function has parameters although types are inferred.  This file tells
which calls these are: calls of the entry point, calls with fewer arguments whose type is still that
of a function or, in circles of calls, not known yet, and calls with more arguments of a function
whose result may be a function.

Main definitions:

- Function {lit}`ProgramTypes.typeIn?`: the type that is reported for an expression.
- Relation {lit}`Program.Overlooks`: why a wrong number of arguments is not rejected.

Main results:

- Theorem {lit}`Program.Walk.typeIn?_call`: what is reported for a call is what an instance of the
  type of the function leaves after the arguments.
- Theorem {lit}`Program.arityMismatch_overlooked`: a run ends with a wrong number of arguments only
  at a call that is overlooked.
-/

namespace WhileLang

open Relation (ReflTransGen)

/-! ## Arrows -/

namespace Ty

theorem replace_arrows (f : String → Ty) (domains : List Ty) (result : Ty) :
    (arrows domains result).replace f = arrows (domains.map (replace f)) (result.replace f) := by
  induction domains with
  | nil => rfl
  | cons domain rest ih => rw [arrows_cons, replace, ih, List.map_cons, arrows_cons]

/-- What is left after fewer arguments is an arrow. -/
theorem exists_arrow_of_arrows_eq {domains others : List Ty} {result other : Ty}
    (hlength : domains.length < others.length) (h : arrows domains result = arrows others other) :
    ∃ domain codomain, result = .arrow domain codomain := by
  induction domains generalizing others with
  | nil =>
    obtain ⟨first, rest, rfl⟩ := List.exists_cons_of_length_pos hlength
    exact ⟨_, _, h⟩
  | cons domain domains ih =>
    cases others with
    | nil => simp at hlength
    | cons first others =>
      rw [arrows_cons, arrows_cons, arrow.injEq] at h
      exact ih (Nat.lt_of_succ_lt_succ hlength) h.2

/-- Only a variable or an arrow becomes an arrow. -/
theorem ne_con_of_replace {type domain codomain : Ty} {f : String → Ty}
    (h : type.replace f = .arrow domain codomain) (name : String) : type ≠ .con name := by
  rintro rfl
  cases h

end Ty

/-! ## Types in reports -/

/-- The type that is reported for an expression in a function. -/
def ProgramTypes.typeIn? (types : ProgramTypes) (program : Program) (caller : String)
    (expr : Expr) : Option Ty := do
  let report ← types.function? caller
  let term ← (expr.toTerm program caller).toOption
  report.typeOf? term.text

namespace Program

variable {program : Program}

/-- Why a call with another number of arguments than its function has parameters is accepted. -/
inductive Overlooks (program : Program) (types : ProgramTypes) (caller callee : String)
    (args : List Expr) (arity : Nat) : Prop where
  /-- Calls of the entry point are not compared with its type. -/
  | entryPoint (h : callee = entryPoint)
  /-- Fewer arguments leave a function. -/
  | unfinished {domain codomain : Ty} (hfewer : args.length < arity)
      (htype : types.typeIn? program caller (.call callee args) = some (.arrow domain codomain))
  /-- The type of a function is not known to those that it calls back. -/
  | circular {name : String} (hfewer : args.length < arity)
      (htype : types.typeIn? program caller (.call callee args) = some (.var name))
      (hne : callee ≠ caller) (hback : ReflTransGen program.Uses callee caller)
  /-- What the function returns may be a function. -/
  | surplus {report : FunctionTypes} {result : Ty} (hmore : arity < args.length)
      (hreport : types.function? callee = some report)
      (hresult : report.signature.resultAfter? arity = some result)
      (hfunction : ∀ name, result ≠ .con name)

/-! ## Types of calls -/

theorem typeIn?_eq {types : ProgramTypes} {report : FunctionTypes} {caller : String} {expr : Expr}
    {term : Term} (hreport : types.function? caller = some report)
    (hterm : expr.toTerm program caller = .ok term) :
    types.typeIn? program caller expr = report.typeOf? term.text := by
  simp [ProgramTypes.typeIn?, hreport, hterm, Except.toOption]

/-- The types of a called name take as many arguments as there are in the call. -/
theorem exists_domains_of_call {known : String → Option Ty} {varTypes : TermVar → Ty}
    {callee : String} {terms : List Term} {type : Ty} (hcallee : isIdentifier callee = true)
    (h : (terms.foldl Term.app (.global callee)).HasType known varTypes type) :
    ∃ domains, domains.length = terms.length ∧
      match known callee with
      | some general => (Ty.arrows domains type).IsInstance general
      | none => Ty.arrows domains type = varTypes (.global callee) := by
  obtain ⟨domains, hfunction, harguments⟩ := h.of_foldl_app
  cases hfunction with
  | var hleaf =>
    exact ⟨domains, harguments.length_eq.symm, (TermVar.hasType_global_iff hcallee).1 hleaf⟩

variable {types : ProgramTypes} {start stop after : Inference} {definitions : String → SpotSolution}
  {solution : Subst} {caller callee : String} {args : List Expr} {terms : List Term}

/--
In a function, the type of a call comes from an instance of the type of the function that is called.
If that function is solved only later, it comes from one after all equations are solved.
-/
theorem Walk.exists_instance_of_function
    (h : program.Walk types start stop after definitions solution)
    (hnamed : IsNamed program.names) (hcaller : caller ∈ program.bindingOrder)
    (huses : program.Uses caller callee) (hcallee : callee ∈ program.bindingOrder)
    (hidentifier : isIdentifier callee = true) {row : Subterm}
    (hrow : row ∈ (definitions caller).rows)
    (hterm : row.term = terms.foldl Term.app (.global callee)) :
    ∃ domains assignment, domains.length = terms.length
      ∧ (Ty.arrows domains (((definitions caller).solution.apply row.type).replace
          assignment)).IsInstance (definitions callee).signature
      ∧ (assignment = .var ∨ callee ≠ caller ∧ ReflTransGen program.Uses callee caller) := by
  obtain ⟨front, behind, heq, hisOf⟩ := h.isOf hcaller
  obtain ⟨varTypes, hrows, hname, -⟩ := h.spot_typed hnamed hcaller hisOf
  have hspot := hrows row hrow
  rw [hterm] at hspot
  obtain ⟨domains, hlength, htype⟩ := exists_domains_of_call hidentifier hspot
  by_cases hfront : callee ∈ front
  · -- The function is solved before the one that calls it.
    simp only [Walk.known, extend, if_pos hfront] at htype
    exact ⟨domains, .var, hlength, by rwa [Ty.replace_var], .inl rfl⟩
  simp only [Walk.known, extend, if_neg hfront] at htype
  by_cases hself : callee = caller
  · subst hself
    refine ⟨domains, .var, hlength, ?_, .inl rfl⟩
    rw [Ty.replace_var, htype, hname]
    exact .refl _
  · -- The function calls back, and has one type in all functions that are solved before it.
    have hback := (program.bindingOrder_sound.ordered front caller behind heq callee
      huses).resolve_left hfront
    obtain ⟨hfinalRows, -⟩ := h.final_typed hnamed hcaller hisOf
    obtain ⟨front', behind', -, hisOf'⟩ := h.isOf hcallee
    obtain ⟨-, hfinalName⟩ := h.final_typed hnamed hcallee hisOf'
    have hfinal := hfinalRows row hrow
    rw [hterm] at hfinal
    obtain ⟨domains, hlength, htype⟩ := exists_domains_of_call hidentifier hfinal
    simp only [Walk.known, extend, if_neg hfront] at htype
    exact ⟨domains, _, hlength, ⟨_, htype.trans hfinalName⟩, .inr ⟨hself, hback⟩⟩

/-- In the entry point, the type of a call comes from an instance of that of the function. -/
theorem Walk.exists_instance_of_main
    (h : program.Walk types start stop after definitions solution)
    (hnamed : IsNamed program.names) (hcallee : callee ∈ program.bindingOrder)
    (hidentifier : isIdentifier callee = true) {row : Subterm}
    (hrow : row ∈ stop.env.subterms.toList.drop start.env.subterms.size)
    (hterm : row.term = terms.foldl Term.app (.global callee)) :
    ∃ domains, domains.length = terms.length
      ∧ (Ty.arrows domains (solution.apply row.type)).IsInstance
        (definitions callee).signature := by
  obtain ⟨varTypes, hrows, -⟩ := h.main_typed hnamed
  have htyped := hrows row hrow
  rw [hterm] at htyped
  obtain ⟨domains, hlength, htype⟩ := exists_domains_of_call hidentifier htyped
  simp only [Walk.known, extend, if_pos hcallee] at htype
  exact ⟨domains, hlength, htype⟩

/--
What is reported for a call is what an instance of the reported type of the function leaves after
the arguments.  Only where the function leads back to the one that calls it may the report be more
general than that.
-/
theorem Walk.typeIn?_call (h : program.Walk types start stop after definitions solution)
    (hnamed : IsNamed program.names) (hcall : program.CallsWith caller callee args)
    (hne : callee ≠ entryPoint) :
    ∃ type domains assignment, types.typeIn? program caller (.call callee args) = some type
      ∧ callee ∈ program.bindingOrder ∧ domains.length = args.length
      ∧ (Ty.arrows domains (type.replace assignment)).IsInstance (definitions callee).signature
      ∧ (assignment = .var ∨ callee ≠ caller ∧ ReflTransGen program.Uses callee caller) := by
  obtain ⟨function, hfunction, hmem⟩ := hcall
  have hcaller := mem_bindingOrder_of_function? hfunction
  obtain ⟨other, hother, hterm⟩ := h.terms caller hcaller
  obtain rfl : other = function := Option.some.inj (hother.symm.trans hfunction)
  obtain ⟨-, hname⟩ := mem_functions_of_function? hfunction
  obtain ⟨part, hpart, hpartTerm⟩ := FunctionDef.exists_call_of_mem_calls hterm hmem
  rw [hname] at hpartTerm
  obtain ⟨hdefined, terms, hterms, rfl⟩ := Expr.toTerm_call_eq_ok.1 hpartTerm
  obtain ⟨called, hcalled⟩ := Option.isSome_iff_exists.1 hdefined
  have hcallee := program.bindingOrder_sound.complete hcalled hne
  have hcalls : callee ∈ other.callees := by
    rw [FunctionDef.callees_eq]
    exact List.mem_map_of_mem hmem
  have hidentifier : isIdentifier callee = true :=
    isNamed_callees hnamed hfunction callee hcalls
  have hlength := hterms.length_eq
  rcases List.mem_cons.1 hcaller with rfl | hcaller
  · have hparts := h.main_map_term hnamed
    obtain ⟨row, hrow, hrowTerm, htype⟩ := typeOf?_of_rows h.rows (fun row hrow =>
      (h.terms entryPoint List.mem_cons_self).isReadable hnamed
        (hparts ▸ List.mem_map_of_mem hrow)) (hparts ▸ hpart)
    obtain ⟨domains, hdomains, hinstance⟩ :=
      h.exists_instance_of_main hnamed hcallee hidentifier hrow hrowTerm
    refine ⟨_, domains, .var, (typeIn?_eq ?_ hpartTerm).trans htype, hcallee,
      hdomains.trans hlength.symm, by rwa [Ty.replace_var], .inl rfl⟩
    rw [ProgramTypes.function?, if_pos rfl]
  · obtain ⟨front, behind, -, hisOf⟩ := h.isOf hcaller
    have hhasTerm := h.terms caller (List.mem_cons_of_mem _ hcaller)
    have hparts := hisOf.map_term_rows (hhasTerm.belongsTo hnamed)
    obtain ⟨row, hrow, hrowTerm, htype⟩ := typeOf?_of_rows (SpotSolution.subterms_report _ _)
      (fun row hrow => hhasTerm.isReadable hnamed (hparts ▸ List.mem_map_of_mem hrow))
      (hparts ▸ hpart)
    obtain ⟨domains, assignment, hdomains, hinstance, hassignment⟩ :=
      h.exists_instance_of_function hnamed hcaller ⟨⟨other, hfunction, hcalls⟩, hne⟩ hcallee
        hidentifier hrow hrowTerm
    exact ⟨_, domains, assignment, (typeIn?_eq (h.function?_eq hcaller) hpartTerm).trans htype,
      hcallee, hdomains.trans hlength.symm, hinstance, hassignment⟩

/-! ## Wrong numbers of arguments -/

/-- A call with a wrong number of arguments is one of those that are overlooked. -/
theorem Walk.overlooks (h : program.Walk types start stop after definitions solution)
    (hnamed : IsNamed program.names) (hcall : program.CallsWith caller callee args)
    {function : FunctionDef} (hfunction : program.function? callee = some function)
    (hne : args.length ≠ function.params.length) :
    program.Overlooks types caller callee args function.params.length := by
  by_cases hmain : callee = entryPoint
  · exact .entryPoint hmain
  obtain ⟨type, domains, assignment, htype, hcallee, hdomains, ⟨f, hinstance⟩, hassignment⟩ :=
    h.typeIn?_call hnamed hcall hmain
  obtain ⟨params, result, hsignature, hparams⟩ := h.signature_eq_arrows hnamed hcallee hfunction
  rw [hsignature, Ty.replace_arrows] at hinstance
  rcases Nat.lt_or_gt_of_ne hne with hfewer | hmore
  · obtain ⟨domain, codomain, harrow⟩ :=
      Ty.exists_arrow_of_arrows_eq (by simpa [hdomains, hparams]) hinstance
    rcases hassignment with rfl | ⟨hother, hback⟩
    · rw [Ty.replace_var] at harrow
      exact .unfinished hfewer (harrow ▸ htype)
    · cases type with
      | var name => exact .circular hfewer htype hother hback
      | con name => exact (Ty.ne_con_of_replace harrow name rfl).elim
      | arrow domain codomain => exact .unfinished hfewer htype
  · obtain ⟨domain, codomain, harrow⟩ :=
      Ty.exists_arrow_of_arrows_eq (by simpa [hdomains, hparams]) hinstance.symm
    refine .surplus hmore (h.function?_eq hcallee) ?_ (Ty.ne_con_of_replace harrow)
    change (definitions callee).signature.resultAfter? _ = _
    rw [hsignature, ← hparams, Ty.resultAfter?_arrows]

/--
Typing and running agree on numbers of arguments, except for calls that are overlooked.  Where types
are inferred, a run comes to a call with a wrong number of arguments, and so ends with that error,
only if the call is one of the entry point, or leaves a function, or is of a function whose result
may be a function.
-/
theorem arityMismatch_overlooked (hnamed : IsNamed program.names)
    (hinfer : program.inferTypes = .ok types) (maxDepth : Nat) :
    (∀ callee args stack function, program.Reaches maxDepth ⟨.expr (.call callee args), stack⟩ →
        program.function? callee = some function → args.length ≠ function.params.length →
        ∃ caller, program.CallsWith caller callee args
          ∧ program.Overlooks types caller callee args function.params.length)
      ∧ ∀ fuel callee expected found,
        program.run? maxDepth fuel = some (.error (.arityMismatch callee expected found)) →
        ∃ caller args stack function, program.Reaches maxDepth ⟨.expr (.call callee args), stack⟩
          ∧ program.function? callee = some function ∧ function.params.length = expected
          ∧ args.length = found ∧ found ≠ expected ∧ program.CallsWith caller callee args
          ∧ program.Overlooks types caller callee args expected := by
  obtain ⟨start, stop, after, definitions, solution, hwalk⟩ := inferTypes_walk hnamed hinfer
  have hoverlooks (callee : String) (args : List Expr) (stack : CallStack) (function : FunctionDef)
      (hreaches : program.Reaches maxDepth ⟨.expr (.call callee args), stack⟩)
      (hfunction : program.function? callee = some function)
      (hne : args.length ≠ function.params.length) :
      ∃ caller, program.CallsWith caller callee args
        ∧ program.Overlooks types caller callee args function.params.length := by
    obtain ⟨caller, hcall⟩ := hreaches.isWritten _ List.mem_cons_self
    exact ⟨caller, hcall, hwalk.overlooks hnamed hcall hfunction hne⟩
  refine ⟨hoverlooks, fun fuel callee expected found hend => ?_⟩
  obtain ⟨args, stack, function, hreaches, hfunction, rfl, rfl, hne⟩ := run?_arityMismatch hend
  obtain ⟨caller, hcall, hoverlooked⟩ :=
    hoverlooks callee args stack function hreaches hfunction hne
  exact ⟨caller, args, stack, function, hreaches, hfunction, rfl, rfl, hne, hcall, hoverlooked⟩

/-- A program of functions without bodies: their names, parameters and results. -/
def returning (functions : List (String × List String × Expr)) : Program where
  functions := functions.map fun (name, params, result) => { name, params, body := none, result }

/-- A function that is called without its argument by the entry point. -/
def withoutArgument : Program :=
  returning [("f", ["x"], .var "x"), ("main", [], .call "f" [])]

/--
Programs whose types are inferred, with what their runs end with: a call with fewer arguments, two
with more, one of the entry point, one with fewer arguments in a circle, and one of a function that
is named like an operator.
-/
def miscounting : List (Program × SemanticError) :=
  [(withoutArgument, .arityMismatch "f" 1 0),
    (returning [("loop", [], .call "loop" []), ("main", [], .call "loop" [.int 1])],
      .arityMismatch "loop" 0 1),
    (returning [("f", ["x"], .var "x"), ("g", [], .call "f" []), ("main", [], .call "g" [.int 1])],
      .arityMismatch "g" 0 1),
    (returning [("f", [], .call "main" [.int 1]), ("main", [], .call "f" [])],
      .arityMismatch "main" 0 1),
    (returning [("f", ["x"], .call "g" [.int 1]), ("g", ["x"], .call "f" []),
      ("main", [], .call "g" [.int 1])], .arityMismatch "f" 1 0),
    (returning [("+", ["x", "y", "z"], .var "x"), ("main", [], .call "+" [.int 1, .int 2])],
      .arityMismatch "+" 3 2)]

/-- Types are inferred for programs that end with a wrong number of arguments. -/
theorem arityMismatch_accepted :
    miscounting.all (fun (program, error) =>
      program.inferTypes.isOk && program.run? 1000 20 = some (.error error)) = true := by
  decide +kernel

theorem arityMismatch_overlooked_withoutArgument :
    IsNamed withoutArgument.names ∧ ∃ types, withoutArgument.inferTypes = .ok types
      ∧ withoutArgument.run? 1000 20 = some (.error (.arityMismatch "f" 1 0))
      ∧ ∃ caller args stack function,
        withoutArgument.Reaches 1000 ⟨.expr (.call "f" args), stack⟩
        ∧ withoutArgument.function? "f" = some function ∧ function.params.length = 1
        ∧ args.length = 0 ∧ 0 ≠ 1 ∧ withoutArgument.CallsWith caller "f" args
        ∧ withoutArgument.Overlooks types caller "f" args 1 := by
  have hnamed : IsNamed withoutArgument.names := by decide +kernel
  have hend : withoutArgument.run? 1000 20 = some (.error (.arityMismatch "f" 1 0)) := by
    decide +kernel
  obtain ⟨types, hinfer⟩ :=
    exists_of_isOk (show withoutArgument.inferTypes.isOk = true by decide +kernel)
  exact ⟨hnamed, types, hinfer, hend,
    (arityMismatch_overlooked hnamed hinfer 1000).2 20 "f" 1 0 hend⟩

end Program

end WhileLang

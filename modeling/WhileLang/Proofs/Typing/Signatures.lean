import WhileLang.Proofs.Typing.ProgramWalks

/-!
# Signatures and the types of parameters

The type that is reported for a function takes the types that are reported for its parameters, one
after the other, to the type that is reported for what it returns.  The judgements do not say so, as
a call of a function that is solved has many types.  The equations of the walk say it: each
abstraction has one for its own node, and the sequence of body and result gives both nodes one type.
What the function returns has one row only, for no other part of its term starts like that.

Main definitions:

- Structure {lit}`TypeEnv.SolvedBy`: an assignment solves what was collected since a mark.
- Function {lit}`Term.isReturn`: the part of a term that stands for what a function returns.
- Predicate {lit}`FunctionTypes.IsCurried`: a report agrees with itself.

Main results:

- Theorem {lit}`FunctionDef.infer_toTerm_ok`: the type of a function by that of the row of its
  result.
- Theorem {lit}`FunctionDef.filter_isReturn`: there is only one such row.
- Theorem {lit}`Program.signatures_curried`: all reports agree with themselves.
-/

namespace WhileLang

/-! ## Solutions of what was collected -/

section Solutions

variable {assignment : String → Ty} {varTypes : TermVar → Ty} {mark : Nat}

/-- An assignment solves all equations since a mark, and makes the types of variables. -/
structure TypeEnv.SolvedBy (env : TypeEnv) (mark : Nat) (assignment : String → Ty)
    (varTypes : TermVar → Ty) : Prop where
  solves : Solves assignment (env.constraints.toList.drop mark)
  agrees : env.Agrees assignment varTypes

namespace TypeEnv.LeadsTo

variable {before after : TypeEnv}

theorem solvedBy (h : before.LeadsTo after)
    (hsolved : after.SolvedBy mark assignment varTypes) :
    before.SolvedBy mark assignment varTypes where
  solves constraint hmem := hsolved.solves constraint ((h.constraints.drop mark).subset hmem)
  agrees := h.agrees hsolved.agrees

theorem size_constraints_le (h : before.LeadsTo after) :
    before.constraints.size ≤ after.constraints.size := by
  simpa using h.constraints.length_le

theorem size_subterms_le (h : before.LeadsTo after) :
    before.subterms.size ≤ after.subterms.size := by
  simpa using h.subterms.length_le

end TypeEnv.LeadsTo

/-- The equation of a node that is left is solved with those of its parts. -/
theorem Inference.solvedBy_close {before inside : Inference} {term : Term} {left right : Ty}
    (h : (before.close term (inside.withEnv (·.constrain left right))).env.SolvedBy mark assignment
      varTypes) (hmark : mark ≤ inside.env.constraints.size) :
    left.replace assignment = right.replace assignment
      ∧ inside.env.SolvedBy mark assignment varTypes := by
  refine ⟨?_, (before.leadsTo_close inside term left right).solvedBy h⟩
  have hconstraints : (before.close term (inside.withEnv
      (·.constrain left right))).env.constraints.toList
        = inside.env.constraints.toList ++ [(left, right)] := by
    simp [close, withEnv, TypeEnv.record, TypeEnv.constrain]
  refine h.solves (left, right) ?_
  rw [hconstraints, List.drop_append_of_le_length (by simpa using hmark)]
  exact List.mem_append_right _ (List.mem_singleton_self _)

theorem Walked.solves {scope : String} {term : Term} {before after : Inference}
    {constraints : List Constraint} {rows : List Subterm}
    (h : Walked scope term before after constraints rows)
    (hmark : mark ≤ before.env.constraints.size)
    (hsolved : after.env.SolvedBy mark assignment varTypes) : Solves assignment constraints := by
  intro constraint hmem
  refine hsolved.solves constraint ?_
  rw [h.grows.constraints, List.drop_append_of_le_length (by simpa using hmark)]
  exact List.mem_append_right _ hmem

/-- A walk over a term without definitions adds the row of the term. -/
theorem Term.row_mem_of_infer {scope : String} {term : Term} (hbelongs : term.BelongsTo scope)
    {before after : Inference} {type : Ty} (h : term.infer before = (.ok type, after)) :
    before.row term ∈ after.env.subterms.toList.drop before.env.subterms.size := by
  obtain ⟨_, constraints, rows, hwalk, hwalked⟩ := Term.infer_spec hbelongs before
  obtain rfl := (Prod.mk.inj (hwalk.symm.trans h)).2
  rw [hwalked.drop_subterms]
  exact List.mem_of_getLast? hwalked.last

/-! ## Sequences and abstractions -/

/-- A sequence has the type of its second part. -/
theorem Term.infer_sequence_ok {scope : String} {first second : Term}
    (hfirst : first.BelongsTo scope) {before after : Inference} {type : Ty}
    (h : (binary ";" first second).infer before = (.ok type, after))
    (hmark : mark ≤ before.env.constraints.size)
    (hsolved : after.env.SolvedBy mark assignment varTypes) :
    ∃ middle inside, second.infer middle = (.ok middle.nodeType, inside)
      ∧ before.env.LeadsTo middle.env ∧ inside.env.LeadsTo after.env
      ∧ before.nodeType.replace assignment = middle.nodeType.replace assignment := by
  obtain ⟨_, _, middle, inside, hleft, hright, -, rfl⟩ := infer_app_ok h
  obtain rfl := infer_type hleft
  obtain rfl := infer_type hright
  have hbefore := before.grows_within.leadsTo.trans (infer_leadsTo hleft)
  have hright' := infer_leadsTo hright
  obtain ⟨hequation, hinside⟩ := Inference.solvedBy_close hsolved
    (hmark.trans (hbefore.trans hright').size_constraints_le)
  refine ⟨middle, inside, hright, hbefore, before.leadsTo_close .., ?_⟩
  -- The operator and the first part take a type to itself.
  have hbelongs : (app (global ";") first).BelongsTo scope :=
    ⟨belongsTo_global (by decide +kernel), hfirst⟩
  obtain ⟨_, constraints, rows, hwalk, hwalked⟩ := infer_spec hbelongs before.within
  obtain rfl := (Prod.mk.inj (hwalk.symm.trans hleft)).2
  have hmiddle := hright'.solvedBy hinside
  have htyped := hwalked.typed_self (hwalked.solves hmark hmiddle) hmiddle.agrees
  rw [hequation] at htyped
  cases htyped with
  | app hoperator _ =>
    cases hoperator with
    | var hleaf =>
      obtain ⟨parameter, hscheme⟩ := hleaf.eq_scheme rfl rfl
      obtain ⟨-, hsame⟩ := Ty.arrow.inj hscheme
      obtain ⟨hsecond, hnode⟩ := Ty.arrow.inj hsame
      exact hnode.trans hsecond.symm

/-- An abstraction takes the types of its parameters to the type of the term behind them. -/
theorem FunctionDef.infer_abstract_ok {function : FunctionDef} {body : Term}
    {before after : Inference} {type : Ty}
    (h : (function.abstract body).infer before = (.ok type, after))
    (hmark : mark ≤ before.env.constraints.size)
    (hsolved : after.env.SolvedBy mark assignment varTypes) :
    ∃ start inside, body.infer start = (.ok start.nodeType, inside)
      ∧ before.env.LeadsTo start.env ∧ inside.env.LeadsTo after.env
      ∧ before.nodeType.replace assignment = .arrows
        (function.params.map fun param => varTypes (.ofFunction param function.name))
        (start.nodeType.replace assignment) := by
  unfold abstract at h
  generalize function.params = params at h ⊢
  induction params generalizing before after type with
  | nil =>
    obtain rfl := Term.infer_type h
    exact ⟨before, after, h, .refl _, .refl _, rfl⟩
  | cons param params ih =>
    obtain ⟨_, inner, hinner, -, rfl⟩ := Term.infer_abs_ok h
    obtain rfl := Term.infer_type hinner
    have hparam := before.leadsTo_withParam (.ofFunction param function.name)
    have hwalk := Term.infer_leadsTo hinner
    have hmarkInner := hmark.trans hparam.size_constraints_le
    obtain ⟨hequation, hsolvedInner⟩ :=
      Inference.solvedBy_close hsolved (hmarkInner.trans hwalk.size_constraints_le)
    obtain ⟨start, inside, hstart, hbefore, hinside, htype⟩ := ih hmarkInner hsolvedInner hinner
    refine ⟨start, inside, hstart, hparam.trans hbefore,
      hinside.trans (before.leadsTo_close ..), ?_⟩
    obtain ⟨row, -, -, hrow, hlookup⟩ :=
      before.within.env.recordParam_spec (.ofFunction param function.name)
    have hvar : varTypes (.ofFunction param function.name) = row.type.replace assignment :=
      hwalk.agrees hsolvedInner.agrees _ _ hlookup
    rw [hequation, Ty.replace, htype, ← hrow, ← hvar]
    rfl

/-! ## Functions -/

namespace FunctionDef

variable {program : Program} {function : FunctionDef} {term returned : Term}

/-- A function takes the types of its parameters to the type in the row of what it returns. -/
theorem infer_toTerm_ok (hterm : function.toTerm program = .ok term)
    (hnamed : IsNamed function.callees)
    (hreturned : function.result.toTerm program function.name = .ok returned)
    {before after : Inference} {type : Ty} (h : term.infer before = (.ok type, after))
    (hmark : mark ≤ before.env.constraints.size)
    (hsolved : after.env.SolvedBy mark assignment varTypes) :
    ∃ row ∈ after.env.subterms.toList.drop before.env.subterms.size,
      row.term = .app (.global "return") returned
        ∧ before.nodeType.replace assignment = .arrows
          (function.params.map fun param => varTypes (.ofFunction param function.name))
          (row.type.replace assignment) := by
  obtain ⟨result, inner, hresult, hinner, rfl⟩ := toTerm_eq_ok.1 hterm
  obtain rfl : returned = result := Except.ok.inj (hreturned.symm.trans hresult)
  obtain ⟨hbodyNamed, hresultNamed⟩ := isNamed_append.1 hnamed
  have hbelongs : (Term.app (.global "return") returned).BelongsTo function.name :=
    ⟨Term.belongsTo_global (by decide +kernel), Expr.toTerm_belongsTo hresultNamed hresult⟩
  obtain ⟨start, inside, hstart, hbefore, hinside, htype⟩ := infer_abstract_ok h hmark hsolved
  have hmarkStart := hmark.trans hbefore.size_constraints_le
  have hsolvedInside := hinside.solvedBy hsolved
  -- The result is walked over somewhere within the function, and its node has the right type.
  obtain ⟨first, last, hfirst, hstartFirst, hlast, hsame⟩ :
      ∃ first last, (Term.app (.global "return") returned).infer first = (.ok first.nodeType, last)
        ∧ start.env.LeadsTo first.env ∧ last.env.LeadsTo inside.env
        ∧ start.nodeType.replace assignment = first.nodeType.replace assignment := by
    cases hbody : function.body with
    | none =>
      rw [hbody] at hinner
      obtain rfl := hinner
      exact ⟨start, inside, hstart, .refl _, .refl _, rfl⟩
    | some body =>
      rw [hbody] at hinner hbodyNamed
      obtain ⟨done, hdone, rfl⟩ := hinner
      exact Term.infer_sequence_ok (Stmt.toTerm_belongsTo hbodyNamed hdone) hstart hmarkStart
        hsolvedInside
  refine ⟨first.row _, ?_, rfl, ?_⟩
  · have hrow := Term.row_mem_of_infer hbelongs hfirst
    have hrowAfter := ((hlast.trans hinside).subterms.drop _).subset hrow
    exact List.drop_subset_drop_left _ (hbefore.trans hstartFirst).size_subterms_le hrowAfter
  · rw [htype, hsame]
    rfl

end FunctionDef

end Solutions

/-! ## What a function returns -/

/-- A term that stands for what a function returns. -/
def Term.isReturn : Term → Bool
  | .app (.var leaf) _ => leaf = .global "return"
  | _ => false

/-- A term without that name has no such part. -/
theorem Term.Leaves.filter_isReturn {term : Term} (h : term.Leaves (· ≠ .global "return")) :
    term.postOrder.filter Term.isReturn = [] := by
  refine List.filter_eq_nil_iff.2 fun part hmem hreturn => ?_
  have hpart := h.of_mem_postOrder hmem
  unfold Term.isReturn at hreturn
  split at hreturn
  · exact hpart.1 (of_decide_eq_true hreturn)
  · cases hreturn

namespace FunctionDef

variable {program : Program} {function : FunctionDef} {term returned : Term}

theorem filter_isReturn_abstract (body : Term) :
    (function.abstract body).postOrder.filter Term.isReturn
      = body.postOrder.filter Term.isReturn := by
  unfold abstract
  induction function.params with
  | nil => rfl
  | cons param params ih => simp [Term.postOrder, Term.isReturn, ih]

/-- Every parameter is a part of the abstraction over it. -/
theorem param_mem_abstract {param : String} (h : param ∈ function.params) (body : Term) :
    .var (.ofFunction param function.name) ∈ (function.abstract body).postOrder := by
  unfold abstract
  generalize function.params = params at h
  induction params with
  | nil => cases h
  | cons first params ih =>
    rcases List.mem_cons.1 h with rfl | h
    · exact List.mem_cons_self
    · exact List.mem_cons_of_mem _ (List.mem_append_left _ (ih h))

/-- In the term of a function there is one part only that stands for what the function returns. -/
theorem filter_isReturn (hterm : function.toTerm program = .ok term)
    (hnamed : IsNamed function.callees)
    (hreturned : function.result.toTerm program function.name = .ok returned) :
    term.postOrder.filter Term.isReturn = [.app (.global "return") returned] := by
  obtain ⟨result, inner, hresult, hinner, rfl⟩ := toTerm_eq_ok.1 hterm
  obtain rfl : returned = result := Except.ok.inj (hreturned.symm.trans hresult)
  obtain ⟨hbodyNamed, hresultNamed⟩ := isNamed_append.1 hnamed
  have hoperators (name : String) (_ : isOperator name = true) (hne : name ≠ "return") :
      TermVar.global name ≠ .global "return" := fun heq => hne (congrArg TermVar.name heq)
  have hcallees {callees : List String} (hnamed : IsNamed callees) (callee : String)
      (hmem : callee ∈ callees) : TermVar.global callee ≠ .global "return" := by
    intro heq
    obtain rfl : callee = "return" := congrArg TermVar.name heq
    exact absurd (hnamed _ hmem) (by decide +kernel)
  have hnone : returned.postOrder.filter Term.isReturn = [] :=
    (Expr.toTerm_leaves hoperators (fun _ _ => nofun) (hcallees hresultNamed)
      hresult).filter_isReturn
  have hone : (Term.app (.global "return") returned).postOrder.filter Term.isReturn
      = [.app (.global "return") returned] := by
    simp [Term.postOrder, Term.global, Term.isReturn, hnone]
  rw [filter_isReturn_abstract]
  cases hbody : function.body with
  | none =>
    rw [hbody] at hinner
    rw [hinner, hone]
  | some body =>
    rw [hbody] at hinner hbodyNamed
    obtain ⟨first, hfirst, rfl⟩ := hinner
    replace hbodyNamed : IsNamed body.callees := hbodyNamed
    have hfirstNone : first.postOrder.filter Term.isReturn = [] :=
      (Stmt.toTerm_leaves hoperators (fun _ _ => nofun) (hcallees hbodyNamed)
        hfirst).filter_isReturn
    rw [Term.binary, Term.postOrder, Term.postOrder, List.filter_append, List.filter_append, hone]
    simp [Term.postOrder, Term.global, Term.isReturn, hfirstNone, TermVar.global]

/-- Among the rows of a function there is one only for what the function returns. -/
theorem returned_row_unique (hterm : function.toTerm program = .ok term)
    (hnamed : IsNamed function.callees)
    (hreturned : function.result.toTerm program function.name = .ok returned)
    {rows : List Subterm} (hrows : rows.map (·.term) = term.postOrder) {row other : Subterm}
    (hrow : row ∈ rows) (hrowTerm : row.term = .app (.global "return") returned)
    (hother : other ∈ rows) (hotherTerm : other.term = .app (.global "return") returned) :
    row = other := by
  have hfilter := filter_isReturn hterm hnamed hreturned
  rw [← hrows, List.filter_map, List.map_eq_singleton_iff] at hfilter
  obtain ⟨only, honly, -⟩ := hfilter
  have hkept {row : Subterm} (hrow : row ∈ rows)
      (hrowTerm : row.term = .app (.global "return") returned) : row = only := by
    have hmem : row ∈ rows.filter (Term.isReturn ∘ Subterm.term) :=
      List.mem_filter.2 ⟨hrow, by simp [hrowTerm, Term.isReturn, Term.global]⟩
    exact List.mem_singleton.1 (honly ▸ hmem)
  exact (hkept hrow hrowTerm).trans (hkept hother hotherTerm).symm

end FunctionDef

/-! ## Reports -/

/--
A report agrees with itself: the type of the function takes the types that are reported for its
parameters to the type that is reported for what it returns.
-/
def FunctionTypes.IsCurried (report : FunctionTypes) (params : List String) (returned : Term) :
    Prop :=
  ∃ domains result, report.signature = .arrows domains result
    ∧ params.map (fun param => report.typeOf? (param ++ "::" ++ report.name)) = domains.map some
    ∧ report.typeOf? (Term.app (.global "return") returned).text = some result

/-- A report that is made from the rows of a walk over a function agrees with itself. -/
theorem Walked.isCurried {program : Program} {function : FunctionDef} {term returned : Term}
    {before after : Inference} {constraints : List Constraint} {rows : List Subterm}
    {scope : String} (hwalked : Walked scope term before after constraints rows)
    (hinfer : term.infer before = (.ok before.nodeType, after)) {solution : Subst} {mark : Nat}
    {varTypes : TermVar → Ty} (hmark : mark ≤ before.env.constraints.size)
    (hsolved : after.env.SolvedBy mark (fun x => solution.apply (.var x)) varTypes)
    (hterm : function.toTerm program = .ok term) (hnamed : IsNamed function.callees)
    (hreturned : function.result.toTerm program function.name = .ok returned)
    (hreadable : ∀ part ∈ term.postOrder, part.IsReadable) {report : FunctionTypes}
    (hname : report.name = function.name)
    (hsignature : report.signature = solution.apply before.nodeType)
    (hreport : report.subterms = distinctByPrint (printedTypes rows solution)) :
    report.IsCurried function.params returned := by
  have hterms := hwalked.map_term hinfer
  have hreadableRows : ∀ row ∈ rows, row.term.IsReadable := fun row hrow =>
    hreadable row.term (hterms ▸ List.mem_map_of_mem hrow)
  obtain ⟨row, hrow, hrowTerm, htype⟩ :=
    FunctionDef.infer_toTerm_ok hterm hnamed hreturned hinfer hmark hsolved
  rw [hwalked.drop_subterms] at hrow
  obtain ⟨other, hother, hotherTerm, hlookup⟩ := typeOf?_of_rows hreport hreadableRows
    (List.mem_map.2 ⟨row, hrow, hrowTerm⟩)
  obtain rfl := FunctionDef.returned_row_unique hterm hnamed hreturned hterms hother hotherTerm hrow
    hrowTerm
  refine ⟨function.params.map fun param => varTypes (.ofFunction param function.name), _, ?_, ?_,
    hlookup⟩
  · rw [hsignature, Subst.apply_eq_replace, htype, ← Subst.apply_eq_replace]
  · rw [List.map_map]
    refine List.map_congr_left fun param hparam => ?_
    have hpart : .var (.ofFunction param function.name) ∈ rows.map (·.term) := by
      obtain ⟨_, inner, -, -, rfl⟩ := FunctionDef.toTerm_eq_ok.1 hterm
      exact hterms ▸ FunctionDef.param_mem_abstract hparam inner
    obtain ⟨row, hrow, hrowTerm, hlookup⟩ := typeOf?_of_rows hreport hreadableRows hpart
    have htyped := hwalked.typed (hwalked.solves hmark hsolved) hsolved.agrees row hrow
    rw [hrowTerm] at htyped
    cases htyped with
    | var hleaf =>
      rw [Function.comp_apply, ← hleaf.eq_variable, ← Subst.apply_eq_replace, hname]
      exact hlookup

namespace Program

variable {program : Program} {types : ProgramTypes}

namespace Walk

variable {start stop after : Inference} {definitions : String → SpotSolution} {solution : Subst}
  {name : String} {function : FunctionDef} {term returned : Term}

/-- The report of a function that is listed agrees with itself. -/
theorem isCurried_report (h : program.Walk types start stop after definitions solution)
    (hnamed : IsNamed program.names) (hmem : name ∈ program.bindingOrder)
    (hfunction : program.function? name = some function)
    (hterm : function.toTerm program = .ok (program.termOf name))
    (hreturned : function.result.toTerm program function.name = .ok returned) :
    ((definitions name).report (definitions name).solution).IsCurried function.params returned := by
  obtain ⟨-, rfl⟩ := mem_functions_of_function? hfunction
  have hhasTerm := h.terms function.name (List.mem_cons_of_mem _ hmem)
  obtain ⟨front, -, -, hisOf⟩ := h.isOf hmem
  obtain ⟨constraints, hwalked, -⟩ := hisOf.walked (hhasTerm.belongsTo hnamed)
  have hstop : (definitions function.name).solved.env.LeadsTo
      (definitions function.name).stop.env :=
    ((definitions function.name).solved.env.grows_constrain _ _).leadsTo
  exact hwalked.isCurried hisOf.walk ((Inference.leadsTo_withName _ _).size_constraints_le)
    (hstop.solvedBy ⟨unify_solves hisOf.solution_eq, TypeEnv.agrees_assigned _ _⟩) hterm
    (isNamed_callees hnamed hfunction) hreturned (fun _ => hhasTerm.isReadable hnamed)
    (hisOf.name_report _) rfl (SpotSolution.subterms_report _ _)

/-- The report of the entry point agrees with itself. -/
theorem isCurried_main (h : program.Walk types start stop after definitions solution)
    (hnamed : IsNamed program.names) (hmain : types.main.name = entryPoint)
    (hfunction : program.function? entryPoint = some function)
    (hterm : function.toTerm program = .ok (program.termOf entryPoint))
    (hreturned : function.result.toTerm program function.name = .ok returned) :
    types.main.IsCurried function.params returned := by
  obtain ⟨-, hname⟩ := mem_functions_of_function? hfunction
  obtain ⟨constraints, hwalked⟩ := h.main_walked hnamed
  have hsolved : after.env.SolvedBy 0 (fun x => solution.apply (.var x)) (after.env.assigned _) :=
    ⟨unify_solves h.solved, TypeEnv.agrees_assigned _ _⟩
  exact hwalked.isCurried h.main (Nat.zero_le _) (h.walkedOver.leadsTo.solvedBy hsolved) hterm
    (isNamed_callees hnamed hfunction) hreturned
    (fun _ => (h.terms entryPoint List.mem_cons_self).isReadable hnamed) (hmain.trans hname.symm)
    h.signature h.rows

end Walk

/--
Wherever types are inferred for a program over identifiers, every report agrees with itself: the
type of the function takes the types that are reported for its parameters, one after the other, to
the type that is reported for what it returns.
-/
theorem signatures_curried (hnamed : IsNamed program.names) (h : program.inferTypes = .ok types) :
    ∀ report ∈ types.main :: types.functions, ∃ function returned,
      program.function? report.name = some function
        ∧ function.result.toTerm program function.name = .ok returned
        ∧ report.IsCurried function.params returned := by
  obtain ⟨start, stop, after, definitions, solution, hwalk⟩ := inferTypes_walk hnamed h
  have hresult (name : String) (hmem : name ∈ entryPoint :: program.bindingOrder) :
      ∃ function returned, program.function? name = some function
        ∧ function.toTerm program = .ok (program.termOf name)
        ∧ function.result.toTerm program function.name = .ok returned := by
    obtain ⟨function, hfunction, hterm⟩ := hwalk.terms name hmem
    obtain ⟨returned, _, hreturned, -⟩ := FunctionDef.toTerm_eq_ok.1 hterm
    exact ⟨function, returned, hfunction, hterm, hreturned⟩
  refine List.forall_mem_cons.2 ⟨?_, fun report hreport => ?_⟩
  · obtain ⟨_, _, _, _, _, -, -, -, -, hmain⟩ := inferTypes_eq_ok h
    have hname : types.main.name = entryPoint := congrArg FunctionTypes.name hmain
    obtain ⟨function, returned, hfunction, hterm, hreturned⟩ :=
      hresult entryPoint List.mem_cons_self
    exact ⟨function, returned, hname ▸ hfunction, hreturned,
      hwalk.isCurried_main hnamed hname hfunction hterm hreturned⟩
  · rw [hwalk.functions] at hreport
    obtain ⟨name, hmem, rfl⟩ := List.mem_map.1 hreport
    obtain ⟨function, returned, hfunction, hterm, hreturned⟩ :=
      hresult name (List.mem_cons_of_mem _ hmem)
    obtain ⟨_, _, -, hisOf⟩ := hwalk.isOf hmem
    exact ⟨function, returned, (hisOf.name_report _).symm ▸ hfunction, hreturned,
      hwalk.isCurried_report hnamed hmem hfunction hterm hreturned⟩

/-- Two functions that call each other, one with two parameters of the same name. -/
def volley : Program where
  functions := [
    ⟨entryPoint, [], none, .call "ping" [.int 1, .int 2]⟩,
    ⟨"ping", ["n", "n"], some (.assign "m" (.var "n")), .call "pong" [.var "m"]⟩,
    ⟨"pong", ["n"], none, .call "ping" [.var "n", .var "n"]⟩]

theorem signatures_curried_volley : ∃ types, volley.inferTypes = .ok types
    ∧ types.functions.map (·.name) = ["pong", "ping"]
    ∧ ∀ report ∈ types.main :: types.functions, ∃ function returned,
        volley.function? report.name = some function
          ∧ function.result.toTerm volley function.name = .ok returned
          ∧ report.IsCurried function.params returned := by
  have hnames : volley.inferTypes.map (·.functions.map (·.name)) = .ok ["pong", "ping"] := by
    decide +kernel
  cases htypes : volley.inferTypes with
  | error error =>
    rw [htypes] at hnames
    cases hnames
  | ok types =>
    rw [htypes] at hnames
    exact ⟨types, rfl, Except.ok.inj hnames, signatures_curried (by decide +kernel) htypes⟩

end Program

end WhileLang

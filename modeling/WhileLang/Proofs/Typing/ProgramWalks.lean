import WhileLang.Proofs.Term.DefinitionWalks
import WhileLang.Proofs.Term.PrintedForms
import WhileLang.Proofs.Typing.InferredTypes

/-!
# The walk over a program

What was collected when types are inferred for a program, and which rows and solutions its reports
are made from.

Main definitions:

- Structure {lit}`Program.Walk`: the walk over the definitions and the entry point of a program.

Main results:

- Theorem {lit}`Program.inferTypes_walk`: inferred types come from such a walk.
-/

namespace WhileLang

theorem SpotSolution.subterms_report (definition : SpotSolution) (solution : Subst) :
    (definition.report solution).subterms
      = distinctByPrint (printedTypes definition.rows solution) := by
  rw [report, TypeEnv.report, List.take_of_length_le (Nat.le_of_eq Array.length_toList)]
  rfl

/-! ## Functions with terms -/

/-- The parts of a function with identifiers as names can be told apart by their printed forms. -/
theorem FunctionDef.isReadable_of_toTerm {program : Program} {function : FunctionDef}
    {term part : Term} (hnamed : IsNamed function.names) (h : function.toTerm program = .ok term)
    (hpart : part ∈ term.postOrder) : part.IsReadable := by
  have hform {name : String} (hmem : name ∈ function.names) : hasIdentifierForm name = true :=
    hasIdentifierForm_of_isIdentifier (hnamed name hmem)
  have hleaves : term.Leaves TermVar.IsReadable :=
    toTerm_leaves (fun _ hoperator => .inl hoperator)
      (fun _ hmem => ⟨hform hmem, hform List.mem_cons_self⟩)
      (fun callee hmem => TermVar.isReadable_global (hnamed callee (mem_names_of_mem_callees hmem)))
      h
  exact (hleaves.of_mem_postOrder hpart).isReadable

namespace Program

variable {program : Program}


theorem HasTerm.belongsTo (hnamed : IsNamed program.names) {name : String}
    (h : program.HasTerm name) : (program.termOf name).BelongsTo name := by
  obtain ⟨function, hfunction, hterm⟩ := h
  obtain ⟨-, rfl⟩ := mem_functions_of_function? hfunction
  exact FunctionDef.toTerm_belongsTo (isNamed_callees hnamed hfunction) hterm

theorem HasTerm.isReadable (hnamed : IsNamed program.names) {name : String}
    (h : program.HasTerm name) {part : Term} (hpart : part ∈ (program.termOf name).postOrder) :
    part.IsReadable := by
  obtain ⟨function, hfunction, hterm⟩ := h
  exact FunctionDef.isReadable_of_toTerm (isNamed_of_function? hnamed hfunction) hterm hpart

/-- A function of a program without unknown names is the entry point or listed among the others. -/
theorem mem_bindingOrder_of_function? {name : String} {function : FunctionDef}
    (h : program.function? name = some function) : name ∈ entryPoint :: program.bindingOrder := by
  by_cases hname : name = entryPoint
  · exact List.mem_cons.2 (.inl hname)
  · exact List.mem_cons_of_mem _ (program.bindingOrder_sound.complete h hname)

/-! ## The walk over a program -/

/-- The rows of the entry point come before those of the definitions, its own row last. -/
theorem rows_of_entryPoint {names : List String} {start stop after : Inference}
    {scope : String} {main : Term} {constraints : List Constraint} {rows : List Subterm}
    (hwalked : Walked scope main start stop constraints rows)
    (hbehind : ∃ others, after.env.subterms.toList = stop.env.subterms.toList ++ others
      ∧ others.length = names.length) :
    after.env.subterms[after.env.subterms.size - 1 - names.length]? = some (start.row main)
      ∧ (after.env.subterms.toList.take (after.env.subterms.size - 1 - names.length + 1)).drop
          (start.row main).first = rows := by
  obtain ⟨others, hothers, hlength⟩ := hbehind
  have hall : after.env.subterms.toList = (start.env.subterms.toList ++ rows) ++ others := by
    rw [hothers, hwalked.grows.subterms]
  have hlast : (start.env.subterms.toList ++ rows).getLast? = some (start.row main) := by
    rw [List.getLast?_append, hwalked.last]
    rfl
  have hpos : 0 < (start.env.subterms.toList ++ rows).length :=
    List.length_pos_of_mem (List.mem_of_getLast? hlast)
  have hsize : after.env.subterms.size - 1 - names.length
      = (start.env.subterms.toList ++ rows).length - 1 := by
    rw [← Array.length_toList, hall, List.length_append, hlength]
    omega
  constructor
  · rw [← Array.getElem?_toList, hsize, hall, List.getElem?_append_left (by omega),
      ← List.getLast?_eq_getElem?]
    exact hlast
  · have hfirst : (start.row main).first = start.env.subterms.toList.length :=
      Array.length_toList.symm
    rw [hsize, Nat.sub_add_cancel hpos, hall, List.take_left, hfirst, List.drop_left]

/-- What the walk over a program whose types are inferred has collected, and what is reported. -/
structure Walk (program : Program) (types : ProgramTypes) (start stop after : Inference)
    (definitions : String → SpotSolution) (solution : Subst) : Prop where
  terms : ∀ name ∈ entryPoint :: program.bindingOrder, program.HasTerm name
  main : (program.termOf entryPoint).infer start = (.ok start.nodeType, stop)
  walkedOver : WalkedOver program.termOf program.bindingOrder .empty start stop after definitions
  solved : unify after.env.constraints.toList = .ok solution
  signature : types.main.signature = solution.apply start.nodeType
  functions : types.functions = program.bindingOrder.map
    fun name => (definitions name).report (definitions name).solution
  rows : types.main.subterms = distinctByPrint
    (printedTypes (stop.env.subterms.toList.drop start.env.subterms.size) solution)

/-- Inferred types come from a walk over the program. -/
theorem inferTypes_walk (hnamed : IsNamed program.names) {types : ProgramTypes}
    (h : program.inferTypes = .ok types) :
    ∃ start stop after definitions solution,
      program.Walk types start stop after definitions solution := by
  obtain ⟨term, type, after, solution, row, hterm, hinfer, hsolution, hrow, hreport⟩ :=
    inferTypes_eq_ok h
  have hfunctions := functions_of_inferTypes h hterm hinfer
  obtain ⟨hwhole, horder, hterms⟩ := toTerm_eq_defining hterm
  rw [hwhole] at hinfer
  obtain ⟨start, mainType, stop, definitions, hmain, hwalked⟩ := Term.infer_defining_ok
    (fun name hmem => (hterms name (List.mem_cons_of_mem _ hmem)).belongsTo hnamed)
    program.bindingOrder_sound.nodup hinfer
  obtain rfl := Term.infer_type hmain
  obtain ⟨_, constraints, rows, hwalk, hmainWalked⟩ :=
    Term.infer_spec ((hterms entryPoint List.mem_cons_self).belongsTo hnamed) start
  obtain rfl := (Prod.mk.inj (hwalk.symm.trans hmain)).2
  obtain ⟨hat, hrows⟩ := rows_of_entryPoint hmainWalked hwalked.rows
  rw [horder, hat, Option.some.injEq] at hrow
  subst hrow
  refine ⟨start, _, after, definitions, solution, hterms, hmain, hwalked, hsolution, ?_, ?_, ?_⟩
  · rw [hreport]
    rfl
  · rw [hfunctions, hwalked.reports_eq, hmainWalked.reports, hwalked.reports]
    rfl
  · rw [hreport, horder, TypeEnv.report, hrows, hmainWalked.drop_subterms]
    rfl

namespace Walk

/-- What is known of names after some functions were solved. -/
def known (definitions : String → SpotSolution) (names : List String) : String → Option Ty :=
  extend (fun _ => none) (fun name => (definitions name).signature) names

variable {types : ProgramTypes} {start stop after : Inference} {definitions : String → SpotSolution}
  {solution : Subst} {name : String}

/-- A function that is listed was solved over those before it. -/
theorem isOf (h : program.Walk types start stop after definitions solution)
    (hmem : name ∈ program.bindingOrder) :
    ∃ front behind, program.bindingOrder = front ++ name :: behind
      ∧ (definitions name).IsOf name (program.termOf name)
        (known definitions front) := by
  obtain ⟨front, behind, heq⟩ := List.append_of_mem hmem
  exact ⟨front, behind, heq, h.walkedOver.solved front name behind heq⟩

/-- The report of a function. -/
theorem function?_eq (h : program.Walk types start stop after definitions solution)
    (hmem : name ∈ program.bindingOrder) :
    types.function? name = some ((definitions name).report (definitions name).solution) := by
  have hname (other : String) (hother : other ∈ program.bindingOrder) :
      ((definitions other).report (definitions other).solution).name = other := by
    obtain ⟨_, _, _, hisOf⟩ := h.isOf hother
    exact hisOf.name_report _
  have hne : name ≠ entryPoint := fun heq => program.bindingOrder_sound.main (heq ▸ hmem)
  rw [ProgramTypes.function?, if_neg hne, h.functions]
  generalize program.bindingOrder = names at hmem hname
  induction names with
  | nil => cases hmem
  | cons first names ih =>
    obtain ⟨hfirst, hname⟩ := List.forall_mem_cons.1 hname
    rw [List.map_cons, List.find?_cons]
    by_cases heq : first = name
    · subst heq
      simp [hfirst]
    · simp only [hfirst, heq, decide_false]
      exact ih ((List.mem_cons.1 hmem).resolve_left (Ne.symm heq)) hname

/-- The solution of all equations types the parts of a function over what is reported for them. -/
theorem final_typed (h : program.Walk types start stop after definitions solution)
    (hnamed : IsNamed program.names) (hmem : name ∈ program.bindingOrder) {front : List String}
    (hisOf : (definitions name).IsOf name (program.termOf name)
      (known definitions front)) :
    (∀ row ∈ (definitions name).rows, row.term.HasType
        (known definitions front)
        (after.env.assigned fun x => solution.apply (.var x))
        (((definitions name).solution.apply row.type).replace fun x => solution.apply (.var x)))
      ∧ after.env.assigned (fun x => solution.apply (.var x)) (.global name)
        = (definitions name).signature.replace fun x => solution.apply (.var x) := by
  have hbelongs := (h.terms name (List.mem_cons_of_mem _ hmem)).belongsTo hnamed
  have hleads : (definitions name).stop.env.LeadsTo after.env :=
    ((h.walkedOver.keeps name hmem).trans (Term.infer_leadsTo h.main)).trans h.walkedOver.leadsTo
  have hsolves : Solves (fun x => solution.apply (.var x)) (definitions name).constraints :=
    fun constraint hconstraint => hleads.solves (unify_solves h.solved) constraint
      (List.mem_of_mem_drop hconstraint)
  have hagrees := hleads.agrees (after.env.agrees_assigned fun x => solution.apply (.var x))
  obtain ⟨hrows, hname, -⟩ := hisOf.typed hbelongs hsolves hagrees
  refine ⟨fun row hrow => ?_, hname.trans ?_⟩
  · rw [replace_apply_of_solves hisOf.solution_eq hsolves]
    exact hrows row hrow
  · rw [SpotSolution.signature, replace_apply_of_solves hisOf.solution_eq hsolves]

/-- The solution of a function types its parts, and its name as the function itself. -/
theorem spot_typed (h : program.Walk types start stop after definitions solution)
    (hnamed : IsNamed program.names) (hmem : name ∈ program.bindingOrder) {front : List String}
    (hisOf : (definitions name).IsOf name (program.termOf name)
      (known definitions front)) :
    ∃ varTypes : TermVar → Ty,
      (∀ row ∈ (definitions name).rows, row.term.HasType
          (known definitions front) varTypes
          ((definitions name).solution.apply row.type))
        ∧ varTypes (.global name) = (definitions name).signature
        ∧ (program.termOf name).HasType
          (known definitions front) varTypes
          (definitions name).signature := by
  have hbelongs := (h.terms name (List.mem_cons_of_mem _ hmem)).belongsTo hnamed
  have htyped := hisOf.typed hbelongs (unify_solves hisOf.solution_eq)
    ((definitions name).stop.env.agrees_assigned _)
  simp only [← Subst.apply_eq_replace] at htyped
  exact ⟨_, htyped⟩

/-- The type of a function takes its parameters. -/
theorem signature_eq_arrows (h : program.Walk types start stop after definitions solution)
    (hnamed : IsNamed program.names) (hmem : name ∈ program.bindingOrder) {function : FunctionDef}
    (hfunction : program.function? name = some function) :
    ∃ domains result, (definitions name).signature = .arrows domains result
      ∧ domains.length = function.params.length := by
  obtain ⟨front, behind, heq, hisOf⟩ := h.isOf hmem
  obtain ⟨varTypes, -, -, htyped⟩ := h.spot_typed hnamed hmem hisOf
  obtain ⟨other, hother, hterm⟩ := h.terms name (List.mem_cons_of_mem _ hmem)
  obtain rfl : other = function := Option.some.inj (hother.symm.trans hfunction)
  obtain ⟨_, inner, -, -, habstract⟩ := FunctionDef.toTerm_eq_ok.1 hterm
  rw [habstract] at htyped
  obtain ⟨result, -, hsignature⟩ := FunctionDef.abstract_hasType htyped
  exact ⟨_, result, hsignature, List.length_map _⟩

/-- What the entry point has collected. -/
theorem main_walked (h : program.Walk types start stop after definitions solution)
    (hnamed : IsNamed program.names) :
    ∃ constraints, Walked entryPoint (program.termOf entryPoint) start stop constraints
      (stop.env.subterms.toList.drop start.env.subterms.size) := by
  obtain ⟨stop', constraints, rows, hwalk, hwalked⟩ :=
    Term.infer_spec ((h.terms entryPoint List.mem_cons_self).belongsTo hnamed) start
  obtain rfl : stop' = stop := (Prod.mk.inj (hwalk.symm.trans h.main)).2
  exact ⟨constraints, hwalked.drop_subterms.symm ▸ hwalked⟩

/-- The rows of the entry point are those of its parts. -/
theorem main_map_term (h : program.Walk types start stop after definitions solution)
    (hnamed : IsNamed program.names) :
    (stop.env.subterms.toList.drop start.env.subterms.size).map (·.term)
      = (program.termOf entryPoint).postOrder := by
  obtain ⟨constraints, hwalked⟩ := h.main_walked hnamed
  exact hwalked.map_term h.main

/-- The solution of all equations types the parts of the entry point, and all of it. -/
theorem main_typed (h : program.Walk types start stop after definitions solution)
    (hnamed : IsNamed program.names) :
    ∃ varTypes : TermVar → Ty,
      (∀ row ∈ stop.env.subterms.toList.drop start.env.subterms.size,
        row.term.HasType (known definitions program.bindingOrder) varTypes
          (solution.apply row.type))
        ∧ (program.termOf entryPoint).HasType (known definitions program.bindingOrder) varTypes
          types.main.signature := by
  obtain ⟨constraints, hwalked⟩ := h.main_walked hnamed
  have hall := h.walkedOver.leadsTo.solves (unify_solves h.solved)
  rw [hwalked.grows.constraints] at hall
  have hsolves := (solves_append.1 hall).2
  have hagrees := h.walkedOver.leadsTo.agrees
    (after.env.agrees_assigned fun x => solution.apply (.var x))
  have hrows := hwalked.typed hsolves hagrees
  have hwhole := hwalked.typed_self hsolves hagrees
  rw [h.walkedOver.known] at hrows hwhole
  simp only [← Subst.apply_eq_replace] at hrows hwhole
  exact ⟨_, hrows, h.signature ▸ hwhole⟩

end Walk

end Program

end WhileLang

import WhileLang.Proofs.Term.Resolution
import WhileLang.Proofs.Term.Rows
import WhileLang.Proofs.Typing.InferredTypes

/-!
# What type reports list

Every function has one report, and the report lists the printed forms of the parts of the term of
this function and of no other.  The parts come in post-order, each form where it comes first.

Main definitions:

- Predicate {lit}`FunctionTypes.Lists`: a report lists the parts of a term.
- Structure {lit}`ProgramTypes.Reports`: the reports of a program.

Main results:

- Theorem {lit}`map_fst_distinctByPrint`: which printed forms are kept.
- Theorem {lit}`Term.infer_defining_reports`: what is reported by a walk over definitions.
- Theorem {lit}`Program.exists_row_of_entryPoint`: which rows the entry point is reported from.
- Theorem {lit}`Program.reports_of_inferTypes`: what is reported for a program.
-/

namespace WhileLang

/-! ## Reports of terms -/

/-- Of equal items the first is kept, so an item at the end is left out if it came before. -/
theorem eraseDups_concat {τ : Type} [DecidableEq τ] (items : List τ) (last : τ) :
    (items ++ [last]).eraseDups
      = if last ∈ items then items.eraseDups else items.eraseDups ++ [last] := by
  rw [List.eraseDups_append]
  by_cases hmem : last ∈ items
  · simp [List.removeAll, hmem]
  · simp [List.removeAll, hmem, List.eraseDups_cons]

/-- Each printed form is kept once, where it comes first. -/
theorem map_fst_distinctByPrint (printed : List (String × Ty)) :
    (distinctByPrint printed).map (·.1) = (printed.map (·.1)).eraseDups := by
  induction printed using List.reverseRecOn with
  | nil => rfl
  | append_singleton printed pair ih =>
    have hstep : distinctByPrint (printed ++ [pair])
        = if (distinctByPrint printed).any (·.1 = pair.1) then distinctByPrint printed
          else distinctByPrint printed ++ [pair] := by
      rw [distinctByPrint, List.foldl_append]
      rfl
    have hknown : (distinctByPrint printed).any (·.1 = pair.1) = true
        ↔ pair.1 ∈ printed.map (·.1) := by
      rw [← List.mem_eraseDups, ← ih]
      simp
    rw [hstep, List.map_append, List.map_singleton, eraseDups_concat, ← ih]
    by_cases hmem : pair.1 ∈ printed.map (·.1)
    · rw [if_pos (hknown.2 hmem), if_pos hmem]
    · rw [if_neg (mt hknown.1 hmem), if_neg hmem, List.map_append, List.map_singleton]

/-- A report lists the printed forms of the parts of a term, each where it comes first. -/
def FunctionTypes.Lists (report : FunctionTypes) (term : Term) : Prop :=
  report.subterms.map (·.1) = (term.postOrder.map (·.text)).eraseDups

namespace Term

variable {term part : Term} {names : List String} {before after : Inference} {type : Ty}

/-- A term without definitions has none among its parts. -/
theorem IsOver.isLet_eq_false (h : term.IsOver names) (hmem : part ∈ term.postOrder) :
    part.isLet = false := by
  induction term with
  | var | literal =>
    rw [List.mem_singleton.1 hmem]
    rfl
  | app function argument ihf iha =>
    simp only [postOrder, List.mem_append, List.mem_singleton] at hmem
    rcases hmem with (hmem | hmem) | rfl
    · exact ihf h.1 hmem
    · exact iha h.2 hmem
    · rfl
  | abs param body ih =>
    simp only [postOrder, List.mem_cons, List.mem_append, List.not_mem_nil, or_false] at hmem
    rcases hmem with rfl | hmem | rfl
    · rfl
    · exact ih h hmem
    · rfl
  | letIn => exact h.elim

/-- Rows of the parts of a term without definitions are reported as these. -/
theorem lists_report {env : TypeEnv} {first stop : Nat} (hover : term.IsOver names)
    (hrows : (env.rows first stop).map (·.term) = term.postOrder) (name : String) (signature : Ty)
    (solution : Subst) : (env.report name signature first stop solution).Lists term := by
  have hkept : (env.rows first stop).filter (!·.term.isLet) = env.rows first stop := by
    refine List.filter_eq_self.2 fun row hmem => ?_
    rw [hover.isLet_eq_false (hrows ▸ List.mem_map_of_mem hmem)]
    rfl
  rw [TypeEnv.rows] at hkept hrows
  rw [FunctionTypes.Lists, TypeEnv.report, map_fst_distinctByPrint, hkept, ← hrows, List.map_map,
    List.map_map]
  rfl

/-- Without definitions there is nothing to report. -/
theorem infer_reports (hover : term.IsOver names) (h : term.infer before = (.ok type, after)) :
    after.reports = before.reports := by
  induction term generalizing before type after with
  | var | literal =>
    cases h
    rfl
  | app function argument ihf iha =>
    obtain ⟨_, _, middle, inside, hfunction, hargument, -, rfl⟩ := infer_app_ok h
    have hleft := ihf hover.1 hfunction
    have hright := iha hover.2 hargument
    exact hright.trans hleft
  | abs param body ih =>
    obtain ⟨_, inside, hbody, -, rfl⟩ := infer_abs_ok h
    have hinside := ih hover hbody
    exact hinside
  | letIn => exact hover.elim

/-! ## Reports of definitions -/

variable {terms : String → Term} {main : Term}

/-- A definition that is solved is reported with the rows of its term. -/
theorem exists_report_next {name : TermVar} {bound : Term} {solved : Inference}
    (hover : bound.IsOver names) (h : bound.infer (before.withName name) = (.ok type, solved))
    (solution : Subst) : ∃ report, (before.next name solved solution).reports
      = before.reports ++ [report] ∧ report.name = name.name ∧ report.Lists bound := by
  have hterms : solved.terms = before.terms ++ bound.postOrder :=
    (infer_postOrder h).trans (congrArg (· ++ bound.postOrder) (before.terms_withName name))
  have hrows : ((before.defined name solved).env.rows before.env.subterms.size
      (before.defined name solved).env.subterms.size).map (·.term) = bound.postOrder := by
    have hlength : before.terms.length = before.env.subterms.size := by simp [Inference.terms]
    rw [TypeEnv.rows, List.take_of_length_le (Nat.le_of_eq Array.length_toList), List.map_drop,
      ← hlength]
    change solved.terms.drop before.terms.length = bound.postOrder
    rw [hterms, List.drop_left]
  have hreports := infer_reports hover h
  have hlists := lists_report hover hrows name.name
    (solution.apply (before.withName name).nodeType) solution
  exact ⟨_, congrArg (· ++ [_]) hreports, rfl, hlists⟩

/-- A walk over definitions reports each of them, in their order. -/
theorem infer_defining_reports (hmain : ∃ leaves, main.IsOver leaves)
    (hterms : ∀ name ∈ names, ∃ leaves, (terms name).IsOver leaves)
    (h : (defining terms main names).infer before = (.ok type, after)) :
    ∃ reports, after.reports = before.reports ++ reports ∧ reports.map (·.name) = names
      ∧ ∀ report ∈ reports, report.Lists (terms report.name) := by
  induction names generalizing before type after with
  | nil =>
    obtain ⟨leaves, hover⟩ := hmain
    exact ⟨[], by rw [infer_reports hover h, List.append_nil], rfl, nofun⟩
  | cons name names ih =>
    obtain ⟨⟨leaves, hover⟩, hterms⟩ := List.forall_mem_cons.1 hterms
    obtain ⟨solved, solution, inside, hbound, -, hbody, rfl⟩ := infer_letIn_solved h
    obtain ⟨first, hfirst, hname, hlists⟩ := exists_report_next hover hbound solution
    obtain ⟨reports, hreports, hnames, hall⟩ := ih hterms hbody
    have hname : first.name = name := hname
    refine ⟨first :: reports, ?_, ?_, ?_⟩
    · rw [hfirst, List.append_assoc] at hreports
      exact hreports
    · rw [List.map_cons, hname, hnames]
    · exact List.forall_mem_cons.2 ⟨hname.symm ▸ hlists, hall⟩

/-- The term behind definitions is followed by the definitions only. -/
theorem exists_postOrder_defining (terms : String → Term) (main : Term) (names : List String) :
    ∃ front behind, (defining terms main names).postOrder = front ++ main :: behind
      ∧ behind.length = names.length := by
  induction names with
  | nil =>
    cases main with
    | var | literal => exact ⟨[], [], rfl, rfl⟩
    | app | letIn => exact ⟨_, [], rfl, rfl⟩
    | abs param body => exact ⟨.var param :: body.postOrder, [], rfl, rfl⟩
  | cons name names ih =>
    obtain ⟨front, behind, hpost, hlength⟩ := ih
    refine ⟨(terms name).postOrder ++ front, behind ++ [defining terms main (name :: names)],
      ?_, ?_⟩
    · change (terms name).postOrder ++ (defining terms main names).postOrder ++ [_] = _
      rw [hpost]
      simp only [List.append_assoc, List.cons_append]
      rfl
    · rw [List.length_append, hlength]
      rfl

end Term

/-! ## Reports of programs -/

/-- What is reported for a program. -/
structure ProgramTypes.Reports (types : ProgramTypes) (program : Program) : Prop where
  /-- Every function but the entry point has one report, in the order they are defined. -/
  names : types.functions.map (·.name) = program.bindingOrder
  nodup : (types.functions.map (·.name)).Nodup
  mem_iff {name : String} : name ∈ types.functions.map (·.name) ↔
    program.defines name = true ∧ name ≠ entryPoint
  main : types.main.name = entryPoint
  /-- Every report lists the parts of the term of its function. -/
  lists : ∀ report ∈ types.main :: types.functions, ∃ function term,
    program.function? report.name = some function ∧ function.toTerm program = .ok term
      ∧ report.Lists term

namespace Program

variable {program : Program} {types : ProgramTypes}

/-- The entry point is reported from the row that is found by the number of its node. -/
theorem exists_row_of_entryPoint (h : program.inferTypes = .ok types) {term : ProgramTerm}
    (hterm : program.toTerm = .ok term) : ∃ type after index row solution,
      term.whole.infer .empty = (.ok type, after)
        ∧ after.env.subterms[index]? = some row ∧ row.term = program.termOf entryPoint
        ∧ after.env.positionOf row.node = some index
        ∧ types.main = after.env.report entryPoint (solution.apply row.type) row.first (index + 1)
          solution := by
  obtain ⟨term', type, after, solution, row, hterm', hinfer, -, hrow, hmain⟩ := inferTypes_eq_ok h
  obtain rfl : term = term' := Except.ok.inj (hterm.symm.trans hterm')
  obtain ⟨hwhole, horder, -⟩ := toTerm_eq_defining hterm
  obtain ⟨front, behind, hpost, hlength⟩ := Term.exists_postOrder_defining program.termOf
    (program.termOf entryPoint) program.bindingOrder
  have hterms : after.env.subterms.toList.map (·.term)
      = front ++ program.termOf entryPoint :: behind := by
    rw [← hpost, ← hwhole]
    exact Term.infer_postOrder hinfer
  have hsize : after.env.subterms.size = front.length + (behind.length + 1) := by
    rw [← Array.length_toList, ← List.length_map, hterms, List.length_append, List.length_cons]
  have hindex : after.env.subterms.size - 1 - term.order.length = front.length := by
    rw [horder, ← hlength]
    omega
  have hthere : (after.env.subterms.toList.map (·.term))[front.length]?
      = some (program.termOf entryPoint) := by
    rw [hterms, List.getElem?_append_right (Nat.le_refl _), Nat.sub_self]
    rfl
  rw [List.getElem?_map, Array.getElem?_toList, ← hindex, hrow, Option.map_some,
    Option.some.injEq] at hthere
  exact ⟨type, after, _, row, solution, hinfer, hrow, hthere,
    Term.positionOf_of_infer hinfer hrow, hmain⟩

/-- Wherever types are inferred, every function has a report that lists the parts of its term. -/
theorem reports_of_inferTypes (h : program.inferTypes = .ok types) : types.Reports program := by
  obtain ⟨term, -, -, -, -, hterm, -⟩ := inferTypes_eq_ok h
  obtain ⟨type, after, index, row, solution, hinfer, hrow, hmainTerm, -, hmain⟩ :=
    exists_row_of_entryPoint h hterm
  obtain ⟨hwhole, -, hhas⟩ := toTerm_eq_defining hterm
  have hover (name : String) (hmem : name ∈ entryPoint :: program.bindingOrder) :
      ∃ leaves, (program.termOf name).IsOver leaves := by
    obtain ⟨function, -, hover⟩ := (hhas name hmem).isOver
    exact ⟨_, hover⟩
  have hparts := (Term.infer_tabulates hinfer).parts (Nat.zero_le _) hrow
  obtain ⟨reports, hreports, hnames, hlists⟩ := Term.infer_defining_reports
    (hover _ List.mem_cons_self) (fun name hmem => hover name (List.mem_cons_of_mem _ hmem))
    (hwhole ▸ hinfer)
  have hfunctions : types.functions = reports :=
    (functions_of_inferTypes h hterm hinfer).trans hreports
  rw [← hfunctions] at hnames hlists
  have hall : ∀ report ∈ types.main :: types.functions,
      report.name ∈ entryPoint :: program.bindingOrder
        ∧ report.Lists (program.termOf report.name) := by
    refine List.forall_mem_cons.2 ⟨?_, fun report hmem => ⟨?_, hlists report hmem⟩⟩
    · rw [hmain]
      obtain ⟨leaves, hleaves⟩ := hover _ List.mem_cons_self
      exact ⟨List.mem_cons_self, Term.lists_report hleaves (hmainTerm ▸ hparts.2.2.2) _ _ _⟩
    · exact List.mem_cons_of_mem _ (hnames ▸ List.mem_map_of_mem hmem)
  have hresolved : program.IsResolved := exists_toTerm_iff.1 ⟨term, hterm⟩
  constructor
  case names => exact hnames
  case nodup => exact hnames ▸ program.bindingOrder_sound.nodup
  case mem_iff => exact hnames ▸ hresolved.mem_bindingOrder_iff
  case main => exact hmain ▸ rfl
  case lists =>
    intro report hmem
    obtain ⟨hname, hlists⟩ := hall report hmem
    obtain ⟨function, hfunction, hterm⟩ := hhas report.name hname
    exact ⟨function, _, hfunction, hterm, hlists⟩

/--
Wherever types are inferred, every function has one report, which lists the printed forms of the
parts of its own term in post-order, each where it comes first.  The table that reports are cut out
of grows by such parts with every walk that ends well, and the rows from the first one of a node up
to its own are those of its parts.
-/
theorem reports_list_parts :
    (∀ {program : Program} {types : ProgramTypes},
      program.inferTypes = .ok types → types.Reports program) ∧
    ∀ {term : Term} {before after : Inference} {type : Ty},
      term.infer before = (.ok type, after) → before.env.Tabulates after.env term :=
  ⟨reports_of_inferTypes, Term.infer_tabulates⟩

/-- A function with a parameter, and an entry point that mentions terms more than once. -/
def doubling : Program where
  functions := [
    ⟨entryPoint, [], some (.assign "y" (.call "double" [.int 1])),
      .math .add (.var "y") (.var "y")⟩,
    ⟨"double", ["x"], none, .math .add (.var "x") (.var "x")⟩]

/-- A definition within what another definition binds. -/
def nestedDefinition : Term :=
  .letIn (.global "f")
    (.letIn (.global "g") (.abs (.ofFunction "x" "g") (.var (.ofFunction "x" "g"))) (.global "g"))
    (.app (.global "f") (.literal (.int 1)))

/-- A program with two reports, and a term with a definition inside another one. -/
theorem reports_list_parts_doubling :
    (∃ types, doubling.inferTypes = .ok types ∧ types.Reports doubling ∧
      types.functions.map (fun report => (report.name, report.subterms.map (·.1)))
        = [("double", ["x::double", "return", "+", "(+ x::double)", "((+ x::double) x::double)",
          "(return ((+ x::double) x::double))",
          "\\x::double. (return ((+ x::double) x::double))"])]) ∧
    ∃ after, nestedDefinition.infer .empty = (.ok (.var "a0"), after) ∧
      after.env.subterms.map (·.first) = #[0, 1, 0, 3, 0, 5, 6, 5, 0] ∧
      Inference.empty.env.Tabulates after.env nestedDefinition := by
  obtain ⟨hreports, htabulates⟩ := reports_list_parts
  constructor
  · have hlisted : doubling.inferTypes.map (fun types =>
        types.functions.map fun report => (report.name, report.subterms.map (·.1)))
          = .ok [("double", ["x::double", "return", "+", "(+ x::double)",
            "((+ x::double) x::double)", "(return ((+ x::double) x::double))",
            "\\x::double. (return ((+ x::double) x::double))"])] := by
      decide +kernel
    obtain ⟨types, htypes⟩ := exists_of_isOk (show doubling.inferTypes.isOk = true by
      decide +kernel)
    rw [htypes] at hlisted
    exact ⟨types, htypes, hreports htypes, Except.ok.inj hlisted⟩
  · have htype : (nestedDefinition.infer .empty).1 = .ok (.var "a0") := by decide +kernel
    have hfirst : (nestedDefinition.infer .empty).2.env.subterms.map (·.first)
        = #[0, 1, 0, 3, 0, 5, 6, 5, 0] := by
      decide +kernel
    cases hinfer : nestedDefinition.infer .empty with
    | mk result after =>
      rw [hinfer] at htype hfirst
      obtain rfl : result = .ok (.var "a0") := htype
      exact ⟨after, rfl, hfirst, htabulates hinfer⟩

end Program

end WhileLang

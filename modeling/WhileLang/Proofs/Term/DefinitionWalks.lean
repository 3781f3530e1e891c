import WhileLang.Proofs.Term.Parts
import WhileLang.Proofs.Term.PrincipalTypes

/-!
# The walk over definitions

What a walk over definitions that ends well has solved, whether or not they call each other in
circles.  The equations, rows and variables of each definition are kept up to the end, so any
solution of all equations types the parts of every definition.

Main definitions:

- Type {lit}`SpotSolution`: a definition with its solution.
- Structure {lit}`SpotSolution.IsOf`: the definition of a name was walked over and solved.
- Structure {lit}`WalkedOver`: what the walk over definitions has collected.

Main results:

- Theorem {lit}`Term.infer_defining_ok`: a walk that ends well has solved all definitions.
- Theorem {lit}`SpotSolution.IsOf.typed`: solutions type the parts of a definition.
- Theorem {lit}`SpotSolution.IsOf.hasType`: a function has every instance of its solved type.
-/

namespace WhileLang

/-! ## One definition -/

/-- A definition that was solved: what was collected before it, and with it, and its solution. -/
structure SpotSolution where
  name : TermVar
  before : Inference
  solved : Inference
  solution : Subst

namespace SpotSolution

/-- The number of the first type variable of a definition, which is that of its name. -/
def first (definition : SpotSolution) : Nat :=
  definition.before.within.env.nextVar

/-- The number of the first type variable behind a definition. -/
def last (definition : SpotSolution) : Nat :=
  definition.solved.env.nextVar

/-- What is collected when the equations of a definition are solved. -/
def stop (definition : SpotSolution) : Inference :=
  definition.before.defined definition.name definition.solved

/-- The report of a definition, made from a solution. -/
def report (definition : SpotSolution) (solution : Subst) : FunctionTypes :=
  definition.stop.env.report definition.name.name
    (solution.apply (definition.before.withName definition.name).nodeType)
    definition.before.env.subterms.size definition.stop.env.subterms.size solution

/-- The type that a definition gets. -/
def signature (definition : SpotSolution) : Ty :=
  definition.solution.apply (definition.before.withName definition.name).nodeType

/-- The equations of a definition. -/
def constraints (definition : SpotSolution) : List Constraint :=
  definition.stop.env.constraints.toList.drop definition.before.env.constraints.size

/-- The rows of a definition. -/
def rows (definition : SpotSolution) : List Subterm :=
  definition.stop.env.subterms.toList.drop definition.before.env.subterms.size

/-- The definition of a name was walked over and solved, over what was known of names. -/
structure IsOf (definition : SpotSolution) (name : String) (term : Term)
    (known : String → Option Ty) : Prop where
  name_eq : definition.name = .global name
  known_eq : definition.before.env.signature? = known
  walk : term.infer (definition.before.withName definition.name)
    = (.ok (definition.before.withName definition.name).nodeType, definition.solved)
  solution_eq : unify definition.constraints = .ok definition.solution

namespace IsOf

variable {definition : SpotSolution} {name scope : String} {term : Term}
  {known : String → Option Ty}

/-- A definition is reported under its name. -/
theorem name_report (h : definition.IsOf name term known) (solution : Subst) :
    (definition.report solution).name = name :=
  congrArg TermVar.name h.name_eq

/-- What a definition has collected, and that its rows are those of its parts. -/
theorem walked (h : definition.IsOf name term known) (hbelongs : term.BelongsTo scope) :
    ∃ constraints, Walked scope term (definition.before.withName definition.name) definition.solved
        constraints definition.rows
      ∧ definition.constraints = constraints ++ [(definition.before.recursiveType definition.name,
        (definition.before.withName definition.name).nodeType)] := by
  obtain ⟨solved, constraints, rows, hinfer, hwalked⟩ :=
    Term.infer_spec hbelongs (definition.before.withName definition.name)
  obtain rfl : definition.solved = solved := (Prod.mk.inj (h.walk.symm.trans hinfer)).2
  obtain ⟨hgrows, -⟩ := definition.before.within.env.grows_variableType definition.name
  have hall := (((definition.before.grows_within.trans hgrows).trans hwalked.grows).trans
    (definition.solved.env.grows_constrain (definition.before.recursiveType definition.name)
      (definition.before.withName definition.name).nodeType))
  have hrows : definition.rows = rows := by
    rw [SpotSolution.rows, stop, Inference.defined, Inference.withEnv, hall.subterms,
      ← Array.length_toList, List.drop_left, List.append_nil]
    rfl
  refine ⟨constraints, hrows ▸ hwalked, ?_⟩
  rw [SpotSolution.constraints, stop, Inference.defined, Inference.withEnv, hall.constraints,
    ← Array.length_toList, List.drop_left]
  rfl

theorem map_term_rows (h : definition.IsOf name term known) (hbelongs : term.BelongsTo scope) :
    definition.rows.map (·.term) = term.postOrder := by
  obtain ⟨constraints, hwalked, -⟩ := h.walked hbelongs
  exact hwalked.map_term h.walk

/-- Solutions of the equations of a definition type its parts, and its name as the whole term. -/
theorem typed (h : definition.IsOf name term known) (hbelongs : term.BelongsTo scope)
    {assignment : String → Ty} {varTypes : TermVar → Ty}
    (hsolves : Solves assignment definition.constraints)
    (hagrees : definition.stop.env.Agrees assignment varTypes) :
    (∀ row ∈ definition.rows, row.term.HasType known varTypes (row.type.replace assignment))
      ∧ varTypes (.global name)
        = (definition.before.withName definition.name).nodeType.replace assignment
      ∧ term.HasType known varTypes
        ((definition.before.withName definition.name).nodeType.replace assignment) := by
  obtain ⟨constraints, hwalked, hconstraints⟩ := h.walked hbelongs
  rw [hconstraints] at hsolves
  obtain ⟨hterm, hname⟩ := solves_append.1 hsolves
  obtain ⟨hgrows, hlookup⟩ := definition.before.within.env.grows_variableType definition.name
  have hknown : (definition.before.withName definition.name).env.signature? = known :=
    (definition.before.grows_within.trans hgrows).signature?.trans h.known_eq
  refine ⟨hknown ▸ hwalked.typed hterm hagrees, ?_, hknown ▸ hwalked.typed_self hterm hagrees⟩
  rw [← h.name_eq, hagrees _ _ (hwalked.grows.varTypes hlookup)]
  exact (solves_cons.1 hname).1

/-- A function has every instance of its solved type, if every function it calls has one. -/
theorem hasType {program : Program} {function : FunctionDef}
    (h : definition.IsOf function.name term known) (hnamed : IsNamed function.callees)
    (hterm : function.toTerm program = .ok term) {general? : String → Option Ty}
    (hunsolved : known function.name = none)
    (hself : general? function.name = some definition.signature)
    (hcallees : ∀ callee ∈ function.callees, callee ≠ function.name →
      ∃ general, known callee = some general ∧ general? callee = some general)
    {type : Ty} (hinstance : type.IsInstance definition.signature) :
    function.HasType general? type := by
  obtain ⟨f, rfl⟩ := hinstance
  have hsolves := (unify_solves h.solution_eq).replace f
  have hagrees := definition.stop.env.agrees_assigned fun x =>
    (definition.solution.apply (.var x)).replace f
  obtain ⟨-, hname, htyped⟩ :=
    h.typed (FunctionDef.toTerm_belongsTo hnamed hterm) hsolves hagrees
  have hcalls : CallsInstances program known (definition.stop.env.assigned fun x =>
      (definition.solution.apply (.var x)).replace f) general? function.callees := by
    intro callee hmem _ type hcallee
    rw [TermVar.hasType_global_iff (hnamed callee hmem)] at hcallee
    by_cases hrec : callee = function.name
    · -- Within its own term, a function has the type that the name has in all of it.
      subst hrec
      simp only [hunsolved] at hcallee
      refine ⟨_, hself, f, ?_⟩
      rw [hcallee, hname, signature, Subst.apply_eq_replace, Ty.replace_replace]
    · obtain ⟨general, hsigned, hgeneral⟩ := hcallees callee hmem hrec
      simp only [hsigned] at hcallee
      exact ⟨general, hgeneral, hcallee⟩
  obtain ⟨result, htype, hreturns⟩ := FunctionDef.returns_of_toTerm hcalls hterm htyped
  rw [signature, Subst.apply_eq_replace, Ty.replace_replace]
  exact ⟨_, result, htype, hreturns⟩

end IsOf

end SpotSolution

/-! ## All definitions -/

/-- What a walk over definitions has collected before, and after, the term behind them. -/
structure WalkedOver (terms : String → Term) (names : List String)
    (before start stop after : Inference) (definitions : String → SpotSolution) : Prop where
  solved (front : List String) (name : String) (behind : List String) :
    names = front ++ name :: behind → (definitions name).IsOf name (terms name)
      (extend before.env.signature? (fun name => (definitions name).signature) front)
  known : start.env.signature?
    = extend before.env.signature? (fun name => (definitions name).signature) names
  leadsTo_start : before.env.LeadsTo start.env
  reports : start.reports
    = before.reports ++ names.map fun name => (definitions name).report (definitions name).solution
  keeps : ∀ name ∈ names, (definitions name).stop.env.LeadsTo start.env
  reports_eq : after.reports = stop.reports
  leadsTo : stop.env.LeadsTo after.env
  rows : ∃ rows, after.env.subterms.toList = stop.env.subterms.toList ++ rows
    ∧ rows.length = names.length

namespace WalkedOver

variable {terms : String → Term} {names : List String} {before start stop inside : Inference}
  {definitions : String → SpotSolution}

theorem nil {after : Inference} : WalkedOver terms [] before before after after definitions where
  solved front name behind heq := by simp at heq
  known := extend_nil.symm
  leadsTo_start := .refl _
  reports := (List.append_nil _).symm
  keeps := nofun
  reports_eq := rfl
  leadsTo := .refl _
  rows := ⟨[], (List.append_nil _).symm, rfl⟩

theorem congr (h : WalkedOver terms names before start stop inside definitions)
    {others : String → SpotSolution} (hsame : ∀ name ∈ names, definitions name = others name) :
    WalkedOver terms names before start stop inside others where
  solved front name behind heq := by
    have hsolved := h.solved front name behind heq
    rw [heq] at hsame
    have hextend : extend before.env.signature? (fun name => (definitions name).signature) front
        = extend before.env.signature? (fun name => (others name).signature) front :=
      extend_congr fun other hmem =>
        congrArg SpotSolution.signature (hsame other (List.mem_append_left _ hmem))
    rw [hsame name (by simp), hextend] at hsolved
    exact hsolved
  known := h.known.trans (extend_congr fun name hmem =>
    congrArg SpotSolution.signature (hsame name hmem))
  leadsTo_start := h.leadsTo_start
  reports := h.reports.trans (congrArg _ (List.map_congr_left fun name hmem => by
    rw [hsame name hmem]))
  keeps name hmem := hsame name hmem ▸ h.keeps name hmem
  reports_eq := h.reports_eq
  leadsTo := h.leadsTo
  rows := h.rows

/-- A definition that was solved comes before the others. -/
theorem cons {name : String} {solved : Inference} {solution : Subst}
    (hwalk : (terms name).infer (before.withName (.global name))
      = (.ok (before.withName (.global name)).nodeType, solved))
    (hsolution : (before.defined (.global name) solved).env.solveFrom before.env.constraints.size
      = .ok solution)
    (hreports : solved.reports = before.reports)
    (hsignatures : solved.env.signatures = before.env.signatures)
    (h : WalkedOver terms names (before.next (.global name) solved solution) start stop inside
      definitions)
    (hname : definitions name = ⟨.global name, before, solved, solution⟩) (term : Term)
    (left right : Ty) :
    WalkedOver terms (name :: names) before start stop
      (before.close term (inside.withEnv (·.constrain left right))) definitions := by
  have hsignature : (definitions name).signature
      = solution.apply (before.withName (.global name)).nodeType := by
    rw [hname]
    rfl
  have hnext : (before.next (.global name) solved solution).env.signature?
      = extend before.env.signature? (fun name => (definitions name).signature) [name] :=
    Inference.signature?_next hsignatures hsignature
  have hstop : (definitions name).stop.env.LeadsTo start.env := by
    rw [hname]
    exact (before.leadsTo_next (.global name) solved solution).trans h.leadsTo_start
  constructor
  case solved =>
    intro front other behind heq
    cases front with
    | nil =>
      cases heq
      rw [extend_nil, hname]
      exact ⟨rfl, rfl, hwalk, hsolution⟩
    | cons first front =>
      cases heq
      have hother := h.solved front other behind rfl
      rw [hnext, extend_extend] at hother
      exact hother
  case known => rw [h.known, hnext, extend_extend, List.singleton_append]
  case leadsTo_start =>
    have hdefined : solved.env.LeadsTo (before.defined (.global name) solved).env :=
      (solved.env.grows_constrain _ _).leadsTo
    rw [hname] at hstop
    exact (((before.leadsTo_withName _).trans (Term.infer_leadsTo hwalk)).trans hdefined).trans
      hstop
  case reports =>
    have hreport : (before.next (.global name) solved solution).reports
        = solved.reports ++ [(definitions name).report (definitions name).solution] := by
      rw [hname]
      rfl
    rw [h.reports, hreport, hreports, List.append_assoc]
    rfl
  case keeps => exact List.forall_mem_cons.2 ⟨hstop, h.keeps⟩
  case reports_eq => exact h.reports_eq
  case leadsTo => exact h.leadsTo.trans (before.leadsTo_close inside _ _ _)
  case rows =>
    obtain ⟨rows, hrows, hlength⟩ := h.rows
    refine ⟨rows ++ [before.row term], ?_, by simp [hlength]⟩
    rw [← List.append_assoc, ← hrows]
    exact before.subterms_close _ term

end WalkedOver

/-- A walk over definitions that ends well has solved all of them. -/
theorem Term.infer_defining_ok {terms : String → Term} {main : Term} {names : List String}
    (hterms : ∀ name ∈ names, (terms name).BelongsTo name) (hnodup : names.Nodup)
    {before after : Inference} {type : Ty}
    (h : (defining terms main names).infer before = (.ok type, after)) :
    ∃ start mainType stop definitions, main.infer start = (.ok mainType, stop)
      ∧ WalkedOver terms names before start stop after definitions := by
  induction names generalizing before type after with
  | nil => exact ⟨before, type, after, fun _ => ⟨.global "", before, after, .empty⟩, h, .nil⟩
  | cons name names ih =>
    obtain ⟨hname, hnodup⟩ := List.nodup_cons.1 hnodup
    obtain ⟨hterm, hterms⟩ := List.forall_mem_cons.1 hterms
    obtain ⟨solved, solution, inside, hwalk, hsolution, hbody, rfl⟩ := infer_letIn_solved h
    obtain ⟨start, mainType, stop, definitions, hmain, hwalked⟩ := ih hterms hnodup hbody
    obtain ⟨solved', constraints, rows, hwalk', hterm⟩ :=
      infer_spec hterm (before.withName (.global name))
    obtain rfl : solved' = solved := (Prod.mk.inj (hwalk'.symm.trans hwalk)).2
    obtain ⟨hgrows, -⟩ := before.within.env.grows_variableType (.global name)
    have hothers : ∀ other ∈ names, definitions other
        = Function.update definitions name ⟨.global name, before, solved', solution⟩ other :=
      fun other hmem => (Function.update_of_ne (ne_of_mem_of_not_mem hmem hname) ..).symm
    exact ⟨start, mainType, stop, _, hmain,
      (hwalked.congr hothers).cons hwalk hsolution hterm.reports
        (hterm.grows.signatures.trans hgrows.signatures) (Function.update_self ..) _ _ _⟩

end WhileLang

import WhileLang.Proofs.Term.DefinitionWalks
import WhileLang.Proofs.Term.OwnVariables
import WhileLang.Proofs.Term.Resolution
import WhileLang.Proofs.Typing.InferredTypes
import WhileLang.Proofs.Typing.Soundness

/-!
# Solutions of single definitions

A definition is solved on the spot, by the equations that were demanded since it began, and all
equations are solved once more at the end.  If calls do not go in circles, the two solutions agree
on every type variable of the definition, so reports could be made from the last one as well.  And
once all definitions are solved, only the equations of the entry point can have no solution.

Main definitions:

- Function {lit}`Term.pass`: the definitions that a walk has passed, with their solutions.
- Predicate {lit}`SpotSolution.AgreesWith`: another solution gives the same types.
- Function {lit}`Term.ownConstraints`: the equations of the term behind all definitions.

Main results:

- Theorem {lit}`Term.pass_spec`: what the walk over definitions has collected.
- Theorem {lit}`Program.solved_on_the_spot`: solving on the spot agrees with solving at the end.
-/

namespace WhileLang

open TypeEnv (freshName)
open Unify

/-! ## Definitions that were passed -/

namespace SpotSolution

/-- A substitution does the same to the type variables of a definition as its own solution. -/
def AgreesWith (definition : SpotSolution) (final : Subst) : Prop :=
  ∀ number, definition.first ≤ number → number < definition.last →
    definition.solution.apply (.var (freshName number)) = final.apply (.var (freshName number))

end SpotSolution

namespace Term

/-- The definitions that a walk over a term passes, and what it has collected behind them. -/
def pass : Term → Inference → List SpotSolution × Inference
  | .letIn name bound body, before =>
    match bound.infer (before.withName name) with
    | (.error _, _) => ([], before)
    | (.ok _, solved) =>
      match (before.defined name solved).env.solveFrom before.env.constraints.size with
      | .error _ => ([], before)
      | .ok solution =>
        let (definitions, start) := body.pass (before.next name solved solution)
        (⟨name, before, solved, solution⟩ :: definitions, start)
  | _, before => ([], before)

/-- The equations that the walk over a term adds. -/
def ownConstraints (term : Term) (before : Inference) : List Constraint :=
  (term.infer before).2.env.constraints.toList.drop before.env.constraints.size

theorem pass_letIn {name : TermVar} {bound body : Term} {before solved : Inference} {type : Ty}
    {solution : Subst} (hbound : bound.infer (before.withName name) = (.ok type, solved))
    (hsolution : (before.defined name solved).env.solveFrom before.env.constraints.size
      = .ok solution) :
    (letIn name bound body).pass before
      = (⟨name, before, solved, solution⟩ :: (body.pass (before.next name solved solution)).1,
        (body.pass (before.next name solved solution)).2) := by
  rw [pass, hbound]
  simp only [hsolution]

theorem pass_of_leaves {holds : TermVar → Prop} {term : Term} (h : term.Leaves holds)
    (before : Inference) : term.pass before = ([], before) := by
  cases term with
  | letIn => exact h.elim
  | var | literal | app | abs => rfl

end Term

/-! ## One definition -/

/-- The leaves of a definition: names of its own, operators, and names that are known. -/
def TermVar.IsReady (owner : String) (known : String → Prop) (leaf : TermVar) : Prop :=
  leaf.IsOwnedBy owner ∨ leaf.scope = none ∧ (isOperator leaf.name = true ∨ known leaf.name)

theorem TermVar.IsReady.mono {owner : String} {known known' : String → Prop} {leaf : TermVar}
    (h : leaf.IsReady owner known) (hknown : ∀ name, known name → known' name) :
    leaf.IsReady owner known' :=
  h.imp_right (And.imp_right (Or.imp_right (hknown leaf.name)))

/-- A name has a solved type. -/
def TypeEnv.Signs (env : TypeEnv) (name : String) : Prop :=
  (env.signature? name).isSome = true

/-- No variable of a function has a type yet. -/
def TypeEnv.IsFreeOf (env : TypeEnv) (owner : String) : Prop :=
  ∀ var : TermVar, var.IsOwnedBy owner → env.varTypes.lookup var = none

/-- Functions have different variables. -/
theorem TermVar.IsOwnedBy.unique {var : TermVar} {owner other : String} (h : var.IsOwnedBy owner)
    (h' : var.IsOwnedBy other) : owner = other := by
  rcases h with h | rfl
  · rcases h' with h' | rfl
    · exact Option.some.inj (h.symm.trans h')
    · cases h
  · rcases h' with h' | h'
    · cases h'
    · exact congrArg TermVar.name h'

section

variable {name : String} {bound : Term} {before : Inference}

/-- A definition collects equations and rows over its own type variables. -/
theorem Term.definition_collects (hbound : bound.Leaves (·.IsReady name before.env.Signs))
    (hfree : before.env.IsFreeOf name) :
    ∃ solved constraints rows,
      bound.infer (before.withName (.global name))
          = (.ok (before.withName (.global name)).nodeType, solved)
        ∧ solved.reports = before.reports
        ∧ Collects name before.within.env.nextVar before.within.env
          (before.defined (.global name) solved).env constraints rows
        ∧ (before.withName (.global name)).nodeType.Between before.within.env.nextVar
          solved.env.nextVar := by
  have hstart : before.within.env.Hosts name before.within.env.nextVar := by
    refine ⟨Nat.le_refl _, fun {var type} hvar hlookup => ?_⟩
    cases (hfree var hvar).symm.trans hlookup
  have howned : (TermVar.global name).IsOwnedBy name := .inr rfl
  obtain ⟨hname, hrecursive⟩ := Collects.variableType hstart howned
  have hknown : (before.withName (.global name)).env.signature? = before.env.signature? :=
    hname.grows.signature?
  obtain ⟨solved, constraints, rows, hinfer, hreports, hcollects, hlt⟩ :=
    Term.infer_collects hbound hknown hname.hosts
  have hnode : (before.withName (.global name)).nodeType.Between before.within.env.nextVar
      solved.env.nextVar := .fresh hname.hosts.low_le hlt
  have hall := (hname.trans hcollects).trans
    (Collects.constrain hcollects.hosts (hrecursive.mono hcollects.nextVar_le) hnode)
  exact ⟨solved, _, _, hinfer, hreports, hall, hnode⟩

namespace SpotSolution

variable {definition : SpotSolution} {final : Subst}

theorem AgreesWith.apply_eq (h : definition.AgreesWith final) {type : Ty}
    (htype : type.Between definition.first definition.last) :
    definition.solution.apply type = final.apply type := by
  rw [Subst.apply_eq_replace, Subst.apply_eq_replace]
  refine Ty.replace_congr fun name hmem => ?_
  obtain ⟨number, hlow, hhigh, rfl⟩ := htype name hmem
  exact h number hlow hhigh

/-- A report is the same, whichever of two solutions that agree it is made from. -/
theorem AgreesWith.report_eq (h : definition.AgreesWith final) {owner : String}
    {constraints : List Constraint} {rows : List Subterm}
    (hcollects : Collects owner definition.first definition.before.within.env definition.stop.env
      constraints rows)
    (hnode : (definition.before.withName definition.name).nodeType.Between definition.first
      definition.last) :
    definition.report final = definition.report definition.solution := by
  have hrows : (definition.stop.env.subterms.toList.take definition.stop.env.subterms.size).drop
      definition.before.env.subterms.size = rows := by
    have hsize : definition.before.env.subterms.size
        = definition.before.within.env.subterms.toList.length := Array.length_toList.symm
    rw [List.take_of_length_le (Nat.le_of_eq Array.length_toList), hcollects.grows.subterms, hsize,
      List.drop_left]
  have hmap : (rows.filter (!·.term.isLet)).map (fun row => (row.term.text, final.apply row.type))
      = (rows.filter (!·.term.isLet)).map
        fun row => (row.term.text, definition.solution.apply row.type) := by
    refine List.map_congr_left fun row hrow => ?_
    rw [h.apply_eq (hcollects.rows row (List.mem_filter.1 hrow).1)]
  simp only [report, TypeEnv.report, hrows, h.apply_eq hnode, hmap]

/-- A definition was solved by its own equations among others, and so can its report be made. -/
structure SolvedAmong (definition : SpotSolution) (low : Nat) (constraints : List Constraint) :
    Prop where
  first : low < definition.first
  selects : ∃ own, Selects (Numbered definition.first definition.last) own constraints
    ∧ unify own = .ok definition.solution
  report_eq {final : Subst} : definition.AgreesWith final →
    definition.report final = definition.report definition.solution

/-- The solution of all equations agrees with that of the definition. -/
theorem SolvedAmong.agreesWith {low : Nat} {constraints : List Constraint}
    (h : definition.SolvedAmong low constraints) (hfinal : unify constraints = .ok final) :
    definition.AgreesWith final := by
  obtain ⟨own, hselects, hown⟩ := h.selects
  obtain ⟨spot, hspot, hagrees⟩ := unify_selected hselects hfinal
  obtain rfl : definition.solution = spot := Except.ok.inj (hown.symm.trans hspot)
  exact fun number hlow hhigh => hagrees _ (Ty.Between.fresh hlow hhigh)

end SpotSolution

/-! ## All definitions -/

/-- What the walk over definitions has collected, with the equations of the term behind them. -/
structure Passed (before after : Inference) (definitions : List SpotSolution)
    (own added : List Constraint) : Prop where
  constraints : after.env.constraints.toList = before.env.constraints.toList ++ added
  within : Within (Numbered before.env.nextVar after.env.nextVar) added
  nextVar_lt : before.env.nextVar < after.env.nextVar
  reports : after.reports
    = before.reports ++ definitions.map fun definition => definition.report definition.solution
  solved : ∀ definition ∈ definitions, definition.SolvedAmong before.env.nextVar added
  solvable {f : String → Ty} : Solves f own → ∃ g, Solves g added

/--
A solution of the equations behind a definition goes together with that of the definition, where the
node of the definition has the type of the term behind it.
-/
theorem exists_solves_around {node low high top : Nat} (hnode : node < low) (hlow : low ≤ high)
    (htop : high < top) {constraints added : List Constraint}
    (hown : Within (Numbered low high) constraints) (hbehind : Within (Numbered high top) added)
    {solution : Subst} (hsolution : unify constraints = .ok solution) {g : String → Ty}
    (hg : Solves g added) :
    ∃ combined, Solves combined
      (constraints ++ added ++ [(.var (freshName node), .var (freshName high))]) := by
  classical
  let combined (x : String) : Ty :=
    if Numbered low high x then solution.apply (.var x)
    else if x = freshName node then g (freshName high) else g x
  have hbelow : ¬ Numbered low high (freshName node) := by
    rw [numbered_freshName]
    exact fun hx => hnode.not_ge hx.1
  have habove {x : String} (hx : Numbered high top x) : g x = combined x := by
    have hne : x ≠ freshName node := by
      rintro rfl
      exact (hnode.trans_le hlow).not_ge (numbered_freshName.1 hx).1
    simp only [combined, if_neg fun hx' => Numbered.not_numbered hx' (Nat.le_refl _) hx, if_neg hne]
  refine ⟨combined, solves_append.2 ⟨solves_append.2 ⟨?_, ?_⟩, solves_cons.2 ⟨?_, solves_nil _⟩⟩⟩
  · refine hown.solves (fun x hx => ?_) (unify_solves hsolution)
    simp only [combined, if_pos hx]
  · exact hbehind.solves (fun x => habove) hg
  · have hnext : combined (freshName high) = g (freshName high) :=
      (habove (numbered_freshName.2 ⟨Nat.le_refl _, htop⟩)).symm
    change combined (freshName node) = combined (freshName high)
    rw [hnext]
    simp only [combined, if_neg hbelow, if_pos]

/-- A definition that was solved comes before the others. -/
theorem Passed.cons {before inside : Inference} {solved : Inference} {solution : Subst}
    {definitions : List SpotSolution} {own added constraints : List Constraint}
    {rows : List Subterm}
    (hreports : solved.reports = before.reports)
    (hcollects : Collects name before.within.env.nextVar before.within.env
      (before.defined (.global name) solved).env constraints rows)
    (hnode : (before.withName (.global name)).nodeType.Between before.within.env.nextVar
      solved.env.nextVar)
    (hsolution : unify constraints = .ok solution)
    (h : Passed (before.next (.global name) solved solution) inside definitions own added)
    (term : Term) :
    Passed before (before.close term (inside.withEnv (·.constrain before.nodeType
        (before.next (.global name) solved solution).nodeType)))
      (⟨.global name, before, solved, solution⟩ :: definitions) own
      (constraints ++ added
        ++ [(before.nodeType, (before.next (.global name) solved solution).nodeType)]) := by
  have hlow : before.env.nextVar < before.within.env.nextVar := Nat.lt_succ_self _
  have hhigh : before.within.env.nextVar ≤ solved.env.nextVar := hcollects.nextVar_le
  have htop : solved.env.nextVar < inside.env.nextVar := h.nextVar_lt
  have hown : Within (Numbered before.within.env.nextVar solved.env.nextVar) constraints :=
    hcollects.constraints
  have hbehind : Within (Numbered solved.env.nextVar inside.env.nextVar) added := h.within
  have hequation {inside : String → Prop} (hnode : inside (freshName before.env.nextVar))
      (hnext : inside (freshName solved.env.nextVar)) :
      Within inside [(before.nodeType, (before.next (.global name) solved solution).nodeType)] := by
    refine within_singleton.2 ⟨fun x hx => ?_, fun x hx => ?_⟩
    · exact List.mem_singleton.1 hx ▸ hnode
    · exact List.mem_singleton.1 hx ▸ hnext
  constructor
  case constraints =>
    have hinside := h.constraints
    have hnext : (before.next (.global name) solved solution).env.constraints.toList
        = before.env.constraints.toList ++ constraints := hcollects.grows.constraints
    rw [hnext] at hinside
    simp [Inference.close, Inference.withEnv, TypeEnv.record, TypeEnv.constrain, hinside]
  case within =>
    refine within_append.2 ⟨within_append.2 ⟨hown.mono fun x hx => ?_, hbehind.mono fun x hx => ?_⟩,
      hequation ?_ ?_⟩
    · exact hx.mono hlow.le htop.le
    · exact hx.mono (hlow.le.trans hhigh) (Nat.le_refl _)
    · exact numbered_freshName.2 ⟨Nat.le_refl _, (hlow.trans_le hhigh).trans htop⟩
    · exact numbered_freshName.2 ⟨hlow.le.trans hhigh, htop⟩
  case nextVar_lt => exact (hlow.trans_le hhigh).trans htop
  case reports =>
    have hnext : (before.next (.global name) solved solution).reports
        = solved.reports
          ++ [SpotSolution.report ⟨.global name, before, solved, solution⟩ solution] := rfl
    have hinside := h.reports
    rw [hnext, hreports, List.append_assoc] at hinside
    exact hinside
  case solved =>
    refine List.forall_mem_cons.2 ⟨⟨hlow, ⟨constraints, ?_, hsolution⟩,
      fun hagrees => hagrees.report_eq hcollects hnode⟩, fun other hother => ?_⟩
    · refine ((Selects.refl hown).append_drop (hbehind.mono fun x hx hx' => ?_)).append_drop
        (hequation ?_ ?_)
      · exact hx'.not_numbered (Nat.le_refl _) hx
      · rw [numbered_freshName]
        exact fun hx => hlow.not_ge hx.1
      · rw [numbered_freshName]
        exact fun hx => hx.2.false
    · obtain ⟨hfirst, ⟨own, hselects, hunify⟩, hreport⟩ := h.solved other hother
      replace hfirst : solved.env.nextVar < other.first := hfirst
      refine ⟨(hlow.trans_le hhigh).trans hfirst, ⟨own, ?_, hunify⟩, hreport⟩
      refine (hselects.drop_append (hown.mono fun x hx => ?_)).append_drop (hequation ?_ ?_)
      · exact hx.not_numbered hfirst.le
      · rw [numbered_freshName]
        exact fun hx => ((hlow.trans_le hhigh).trans hfirst).not_ge hx.1
      · rw [numbered_freshName]
        exact fun hx => hfirst.not_ge hx.1
  case solvable =>
    intro f hf
    obtain ⟨g, hg⟩ := h.solvable hf
    exact exists_solves_around hlow hhigh htop hown hbehind hsolution hg

/-- What is known of names after a definition was solved. -/
theorem Collects.signs_next {solved : Inference} {low : Nat} {constraints : List Constraint}
    {rows : List Subterm} (h : Collects name low before.within.env
      (before.defined (.global name) solved).env constraints rows) (solution : Subst)
    (other : String) :
    (before.next (.global name) solved solution).env.Signs other ↔
      other = name ∨ before.env.Signs other := by
  have hsignatures : solved.env.signatures = before.env.signatures := h.grows.signatures
  let general (_ : String) : Ty := solution.apply (before.withName (.global name)).nodeType
  have hgeneral : general name = solution.apply (before.withName (.global name)).nodeType := rfl
  unfold TypeEnv.Signs
  rw [Inference.signature?_next hsignatures hgeneral, extend]
  by_cases heq : other = name
  · simp [heq]
  · simp [heq]

/-- A definition gives types to variables of its function only. -/
theorem Collects.isFreeOf_next {solved : Inference} {low : Nat} {constraints : List Constraint}
    {rows : List Subterm} (h : Collects name low before.within.env
      (before.defined (.global name) solved).env constraints rows) (solution : Subst)
    {other : String} (hother : other ≠ name) (hfree : before.env.IsFreeOf other) :
    (before.next (.global name) solved solution).env.IsFreeOf other := fun var hvar =>
  (h.others fun howned => hother (hvar.unique howned)).trans (hfree var hvar)

end

/-- The walk over definitions solves each of them by its own equations. -/
theorem Term.pass_spec {terms : String → Term} {main : Term} {owner : String} {names : List String}
    {before after : Inference} {type : Ty}
    (hterms : ∀ front name behind, names = front ++ name :: behind →
      (terms name).Leaves (·.IsReady name fun callee => callee ∈ front ∨ before.env.Signs callee))
    (hmain : main.Leaves (·.IsReady owner fun callee => callee ∈ names ∨ before.env.Signs callee))
    (hnodup : (owner :: names).Nodup) (hfree : ∀ name ∈ owner :: names, before.env.IsFreeOf name)
    (hinfer : (defining terms main names).infer before = (.ok type, after)) :
    type = before.nodeType ∧ ∃ added,
      Passed before after ((defining terms main names).pass before).1
          (main.ownConstraints ((defining terms main names).pass before).2) added
        ∧ ((defining terms main names).pass before).1.map (·.name) = names.map .global := by
  induction names generalizing before type after with
  | nil =>
    have hhosts : before.env.Hosts owner before.env.nextVar := by
      refine ⟨Nat.le_refl _, fun {var type} hvar hlookup => ?_⟩
      cases (hfree owner List.mem_cons_self var hvar).symm.trans hlookup
    have hready : main.Leaves (·.IsReady owner before.env.Signs) :=
      hmain.mono fun leaf hleaf => hleaf.mono fun callee hknown => hknown.resolve_left nofun
    obtain ⟨inside, constraints, rows, hwalk, hreports, hcollects, hlt⟩ :=
      infer_collects hready rfl hhosts
    obtain ⟨htype, rfl⟩ := Prod.mk.inj (hwalk.symm.trans hinfer)
    have hown : main.ownConstraints before = constraints := by
      rw [ownConstraints, hwalk, hcollects.grows.constraints, ← Array.length_toList, List.drop_left]
    rw [show (defining terms main []).pass before = ([], before) from pass_of_leaves hmain before]
    refine ⟨(Except.ok.inj htype).symm, constraints,
      ⟨hcollects.grows.constraints, hcollects.constraints, hlt, ?_, nofun, ?_⟩, rfl⟩
    · rw [hreports, List.map_nil, List.append_nil]
    · intro f hf
      exact ⟨f, hown ▸ hf⟩
  | cons name names ih =>
    obtain ⟨howner, hnodup⟩ := List.nodup_cons.1 hnodup
    obtain ⟨hname, hrest⟩ := List.nodup_cons.1 hnodup
    have hready : (terms name).Leaves (·.IsReady name before.env.Signs) :=
      (hterms [] name names rfl).mono fun leaf hleaf =>
        hleaf.mono fun callee hknown => hknown.resolve_left nofun
    obtain ⟨solved, constraints, rows, hbound, hreports, hcollects, hnode⟩ :=
      definition_collects hready (hfree name (by simp))
    obtain ⟨solution, bodyType, inside, hsolution, hbody, rfl, rfl⟩ := infer_letIn_ok hbound hinfer
    have hsigns := hcollects.signs_next solution
    have hknown {front : List String} (callee : String)
        (h : callee ∈ name :: front ∨ before.env.Signs callee) :
        callee ∈ front ∨ (before.next (.global name) solved solution).env.Signs callee := by
      rw [List.mem_cons] at h
      rw [hsigns]
      tauto
    have hfreeNext : ∀ other ∈ owner :: names,
        (before.next (.global name) solved solution).env.IsFreeOf other := by
      intro other hmem
      have hall : other ∈ owner :: name :: names := by
        rw [List.mem_cons] at hmem
        simp only [List.mem_cons]
        tauto
      refine hcollects.isFreeOf_next solution ?_ (hfree other hall)
      rintro rfl
      rcases List.mem_cons.1 hmem with rfl | hmem
      · exact howner List.mem_cons_self
      · exact hname hmem
    obtain ⟨rfl, added, hpassed, hnames⟩ := ih
      (fun front other behind heq => ((hterms (name :: front) other behind (by rw [heq]; rfl)).mono
        fun leaf hleaf => hleaf.mono hknown))
      (hmain.mono fun leaf hleaf => hleaf.mono hknown)
      (List.nodup_cons.2 ⟨fun hmem => howner (List.mem_cons_of_mem _ hmem), hrest⟩) hfreeNext hbody
    have hsolved := hsolution
    rw [Inference.solveFrom_of_append before hcollects.grows.constraints] at hsolution
    have hwhole : defining terms main (name :: names)
        = .letIn (.global name) (terms name) (defining terms main names) := rfl
    rw [hwhole, pass_letIn hbound hsolved]
    exact ⟨rfl, _, hpassed.cons hreports hcollects hnode hsolution _, congrArg _ hnames⟩

/-! ## Programs -/

namespace Program

variable {program : Program}

/-- The names in the term of a function are ready if the functions it calls are. -/
theorem leaves_of_toTerm {function : FunctionDef} {term : Term} {known : String → Prop}
    (hterm : function.toTerm program = .ok term)
    (hcallees : ∀ callee ∈ function.callees, callee ≠ function.name → known callee) :
    term.Leaves (·.IsReady function.name known) := by
  refine FunctionDef.toTerm_leaves (fun _ h => .inr ⟨rfl, .inl h⟩) (fun _ _ => .inl (.inl rfl))
    (fun callee hmem => ?_) hterm
  by_cases heq : callee = function.name
  · exact .inl (.inr (congrArg _ heq))
  · exact .inr ⟨rfl, .inr (hcallees callee hmem heq)⟩

/-- The walk over a program without circles of calls solves each function by its own equations. -/
theorem IsStratified.passed (hstratified : program.IsStratified) {term : ProgramTerm}
    (hterm : program.toTerm = .ok term) {type : Ty} {after : Inference}
    (hinfer : term.whole.infer .empty = (.ok type, after)) :
    ∃ added,
      Passed .empty after (term.whole.pass .empty).1
          (term.main.ownConstraints (term.whole.pass .empty).2) added
        ∧ (term.whole.pass .empty).1.map (·.name) = program.bindingOrder.map .global := by
  obtain ⟨main, hmain, hmainTerm, hwhole, -⟩ := toTerm_eq_ok hterm
  obtain ⟨heq, hterms⟩ := defineAll_eq_defining hwhole
  obtain ⟨hnodup, hnotMem, -, hcomplete⟩ := program.bindingOrder_sound
  obtain ⟨-, hname⟩ := mem_functions_of_function? hmain
  rw [heq] at hinfer ⊢
  refine (Term.pass_spec ?_ ?_ (List.nodup_cons.2 ⟨hnotMem, hnodup⟩) (fun _ _ _ _ => rfl) hinfer).2
  · intro front name behind hsplit
    obtain ⟨function, hfunction, hfunctionTerm⟩ := hterms name (by simp [hsplit])
    obtain ⟨-, rfl⟩ := mem_functions_of_function? hfunction
    refine leaves_of_toTerm hfunctionTerm fun callee hmem hne => ?_
    exact hstratified.readyFor _ front function.name behind hsplit callee
      ⟨function, hfunction, hmem⟩ hne
  · rw [← hname]
    refine leaves_of_toTerm hmainTerm fun callee hmem hne => ?_
    have hdefined : program.defines callee = true := by
      have hresolves := FunctionDef.toTerm_resolves program main
      rw [hmainTerm] at hresolves
      exact hresolves callee hmem
    obtain ⟨function, hfunction⟩ := Option.isSome_iff_exists.1 hdefined
    exact .inl (hcomplete hfunction (hname ▸ hne))

/--
Solving each function on the spot agrees with solving the whole program.  In a program without
circles of calls whose types are inferred, the last solution does the same to the type variables
of a function as the solution of the function, and the reports could be made from it.  And where
all functions are solved but the whole program is not, the equations of the entry point have no
solution.
-/
theorem solved_on_the_spot (hstratified : program.IsStratified) :
    (∀ types, program.inferTypes = .ok types →
      ∃ term type after final, program.toTerm = .ok term
        ∧ term.whole.infer .empty = (.ok type, after) ∧ after.env.solve = .ok final
        ∧ (∀ function ∈ program.functions, function.name ≠ entryPoint →
            ∃ definition ∈ (term.whole.pass .empty).1, definition.name = .global function.name)
        ∧ (∀ definition ∈ (term.whole.pass .empty).1, definition.AgreesWith final)
        ∧ types.functions = (term.whole.pass .empty).1.map (·.report final))
      ∧ ∀ term type after error, program.toTerm = .ok term →
          term.whole.infer .empty = (.ok type, after) → after.env.solve = .error error →
            ∀ f, ¬ Solves f (term.main.ownConstraints (term.whole.pass .empty).2) := by
  constructor
  · intro types htypes
    obtain ⟨term, type, after, final, -, hterm, hinfer, hfinal, -⟩ := inferTypes_eq_ok htypes
    obtain ⟨added, hpassed, hnames⟩ := hstratified.passed hterm hinfer
    have hall : unify added = .ok final := by
      rw [← hfinal, TypeEnv.solve, hpassed.constraints]
      rfl
    have hagrees : ∀ definition ∈ (term.whole.pass .empty).1, definition.AgreesWith final :=
      fun definition hmem => (hpassed.solved definition hmem).agreesWith hall
    refine ⟨term, type, after, final, hterm, hinfer, hfinal, ?_, hagrees, ?_⟩
    · intro function hmem hne
      obtain ⟨other, hother⟩ :=
        Option.isSome_iff_exists.1 (defines_iff.2 (List.mem_map_of_mem hmem))
      have horder := program.bindingOrder_sound.complete hother hne
      have hglobal : TermVar.global function.name ∈ (term.whole.pass .empty).1.map (·.name) :=
        hnames ▸ List.mem_map_of_mem horder
      exact List.mem_map.1 hglobal
    · rw [functions_of_inferTypes htypes hterm hinfer, hpassed.reports]
      exact List.map_congr_left fun definition hmem =>
        ((hpassed.solved definition hmem).report_eq (hagrees definition hmem)).symm
  · intro term type after error hterm hinfer herror f hsolves
    obtain ⟨added, hpassed, -⟩ := hstratified.passed hterm hinfer
    obtain ⟨g, hg⟩ := hpassed.solvable hsolves
    rw [TypeEnv.solve, hpassed.constraints] at herror
    exact not_solves_of_unify herror g hg

/-- A function that returns its argument, and an entry point. -/
def withSame (body : Option Stmt) (result : Expr) : Program where
  functions := [
    { name := "same", params := ["x"], body := none, result := .var "x" },
    { name := "main", params := [], body, result }]

/-- An entry point that assigns an integer and a boolean to one variable. -/
def misassigned : Program :=
  withSame (some (.seq (.assign "a" (.call "same" [.int 1]))
    (.assign "a" (.call "same" [.bool true])))) (.var "a")

theorem solved_on_the_spot_withSame :
    (withSame none (.call "same" [.int 1])).IsStratified ∧ misassigned.IsStratified
      ∧ (∃ types, (withSame none (.call "same" [.int 1])).inferTypes = .ok types
          ∧ ∃ term type after final, (withSame none (.call "same" [.int 1])).toTerm = .ok term
            ∧ term.whole.infer .empty = (.ok type, after) ∧ after.env.solve = .ok final
            ∧ (∃ definition ∈ (term.whole.pass .empty).1, definition.name = .global "same"
              ∧ definition.AgreesWith final)
            ∧ types.functions = (term.whole.pass .empty).1.map (·.report final))
      ∧ ∃ term type after error, misassigned.toTerm = .ok term
          ∧ term.whole.infer .empty = (.ok type, after) ∧ after.env.solve = .error error
          ∧ ∀ f, ¬ Solves f (term.main.ownConstraints (term.whole.pass .empty).2) := by
  have hsame : (withSame none (.call "same" [.int 1])).IsStratified :=
    isStratified_of_rank (fun name => if name = entryPoint then 1 else 0) (by decide +kernel)
  have hmisassigned : misassigned.IsStratified :=
    isStratified_of_rank (fun name => if name = entryPoint then 1 else 0) (by decide +kernel)
  obtain ⟨types, htypes⟩ := exists_of_isOk
    (show (withSame none (.call "same" [.int 1])).inferTypes.isOk = true by decide +kernel)
  obtain ⟨term, type, after, final, hterm, hinfer, hfinal, hexists, hagrees, hfunctions⟩ :=
    (solved_on_the_spot hsame).1 types htypes
  obtain ⟨definition, hmem, hname⟩ := hexists _ List.mem_cons_self (by decide)
  refine ⟨hsame, hmisassigned, ⟨types, htypes, term, type, after, final, hterm, hinfer, hfinal,
    ⟨definition, hmem, hname, hagrees definition hmem⟩, hfunctions⟩, ?_⟩
  obtain ⟨term, hterm⟩ := exists_of_isOk (show misassigned.toTerm.isOk = true by decide +kernel)
  have hwalk : (misassigned.toTerm.map fun term => ((term.whole.infer .empty).1.isOk,
      (term.whole.infer .empty).2.env.solve.isOk)).toOption = some (true, false) := by
    decide +kernel
  simp only [hterm, Except.map, Except.toOption, Option.some.injEq, Prod.mk.injEq] at hwalk
  obtain ⟨type, htype⟩ := exists_of_isOk hwalk.1
  have hinfer : term.whole.infer .empty = (.ok type, (term.whole.infer .empty).2) :=
    Prod.ext htype rfl
  cases herror : (term.whole.infer .empty).2.env.solve with
  | ok solution => simp [herror, Except.isOk, Except.toBool] at hwalk
  | error error =>
    exact ⟨term, type, _, error, hterm, hinfer, herror,
      (solved_on_the_spot hmisassigned).2 term type _ error hterm hinfer herror⟩

end Program

end WhileLang

import WhileLang.Proofs.Term.Exactness
import WhileLang.Proofs.Term.Translation

/-!
# Names in translated terms

The term of a function is made of its own variables, of operators, and of the names of the functions
that it calls.

Main definitions:

- Predicate {lit}`Term.Leaves`: a property of all names in a term without definitions.

Main results:

- Theorem {lit}`FunctionDef.toTerm_leaves`: what names there are in the term of a function.
- Theorem {lit}`FunctionDef.toTerm_isOver`: the term is over the functions that are called.
-/

namespace WhileLang

/-- Names with a fixed meaning. -/
def isOperator (name : String) : Bool :=
  (builtinType? name).isSome || (schemeType? name).isSome

namespace Term

/-- A term has no definitions, its parameters are local, and something holds of all names in it. -/
def Leaves (holds : TermVar → Prop) : Term → Prop
  | .var leaf => holds leaf
  | .literal _ => True
  | .app function argument => function.Leaves holds ∧ argument.Leaves holds
  | .abs param body => param.scope ≠ none ∧ holds param ∧ body.Leaves holds
  | .letIn .. => False

variable {holds other : TermVar → Prop} {term : Term}

theorem Leaves.mono (h : term.Leaves holds) (hsub : ∀ leaf, holds leaf → other leaf) :
    term.Leaves other := by
  induction term with
  | var leaf => exact hsub leaf h
  | literal => trivial
  | app function argument ihf iha => exact ⟨ihf h.1, iha h.2⟩
  | abs param body ih => exact ⟨h.1, hsub param h.2.1, ih h.2.2⟩
  | letIn => exact h

theorem Leaves.binary {operator : String} {left right : Term} (hoperator : holds (.global operator))
    (hleft : left.Leaves holds) (hright : right.Leaves holds) :
    (binary operator left right).Leaves holds :=
  ⟨⟨hoperator, hleft⟩, hright⟩

theorem Leaves.foldl_app {function : Term} {arguments : List Term}
    (hfunction : function.Leaves holds)
    (harguments : ∀ argument ∈ arguments, argument.Leaves holds) :
    (arguments.foldl app function).Leaves holds := by
  induction arguments generalizing function with
  | nil => exact hfunction
  | cons argument rest ih =>
    rw [List.forall_mem_cons] at harguments
    exact ih ⟨hfunction, harguments.1⟩ harguments.2

theorem Leaves.isOver {names : List String} (h : term.Leaves fun leaf =>
    leaf.scope = none → isOperator leaf.name = true ∨ leaf.name ∈ names) : term.IsOver names := by
  induction term with
  | var leaf =>
    intro hscope hbuiltin hscheme
    refine (h hscope).resolve_left ?_
    simp [isOperator, hbuiltin, hscheme]
  | literal => trivial
  | app function argument ihf iha => exact ⟨ihf h.1, iha h.2⟩
  | abs param body ih => exact ih h.2.2
  | letIn => exact h

end Term

/-! ## Translations -/

section

variable {program : Program} {scope : String} {holds : TermVar → Prop} {term : Term}

/-- In an expression there are all operators but one. -/
theorem Expr.toTerm_leaves
    (hoperators : ∀ name, isOperator name = true → name ≠ "return" → holds (.global name))
    {expr : Expr} (hlocals : ∀ name ∈ expr.names, holds (.ofFunction name scope))
    (hcallees : ∀ callee ∈ expr.callees, holds (.global callee))
    (h : expr.toTerm program scope = .ok term) : term.Leaves holds := by
  induction expr generalizing term with
  | literal value =>
    cases h
    trivial
  | var name =>
    cases h
    exact hlocals name List.mem_cons_self
  | math op left right ihl ihr | compare op left right ihl ihr | logic op left right ihl ihr =>
    obtain ⟨l, r, hl, hr, rfl⟩ := Term.binaryOf_eq_ok.1 h
    obtain ⟨hllocals, hrlocals⟩ := List.forall_mem_append.1 hlocals
    obtain ⟨hlcallees, hrcallees⟩ := List.forall_mem_append.1 hcallees
    refine .binary ?_ (ihl hllocals hlcallees hl) (ihr hrlocals hrcallees hr)
    cases op
    all_goals exact hoperators _ rfl (by decide)
  | not operand ih =>
    obtain ⟨inner, hinner, rfl⟩ := toTerm_not_eq_ok.1 h
    exact ⟨hoperators _ rfl (by decide), ih hlocals hcallees hinner⟩
  | call name args ih =>
    obtain ⟨-, terms, hterms, rfl⟩ := toTerm_call_eq_ok.1 h
    obtain ⟨hname, hargs⟩ := List.forall_mem_cons.1 hcallees
    refine .foldl_app hname fun term hmem => ?_
    obtain ⟨arg, harg, hterm⟩ := exists_of_forall₂ hterms hmem
    refine ih arg harg (fun other hother => ?_) (fun other hother => ?_) hterm
    · exact hlocals other (List.mem_cons_of_mem _ (mem_namesOfArgs.2 ⟨arg, harg, hother⟩))
    · exact hargs other (mem_calleesOfArgs.2 ⟨arg, harg, hother⟩)

theorem Stmt.toTerm_leaves
    (hoperators : ∀ name, isOperator name = true → name ≠ "return" → holds (.global name))
    {stmt : Stmt} (hlocals : ∀ name ∈ stmt.names, holds (.ofFunction name scope))
    (hcallees : ∀ callee ∈ stmt.callees, holds (.global callee))
    (h : stmt.toTerm program scope = .ok term) : term.Leaves holds := by
  induction stmt generalizing term with
  | assign name value =>
    obtain ⟨l, r, hl, hr, rfl⟩ := Term.binaryOf_eq_ok.1 h
    cases hl
    obtain ⟨hname, hvalue⟩ := List.forall_mem_cons.1 hlocals
    exact .binary (hoperators _ rfl (by decide)) hname
      (Expr.toTerm_leaves hoperators hvalue hcallees hr)
  | seq first second ihf ihs =>
    obtain ⟨l, r, hl, hr, rfl⟩ := Term.binaryOf_eq_ok.1 h
    obtain ⟨hflocals, hslocals⟩ := List.forall_mem_append.1 hlocals
    obtain ⟨hfirst, hsecond⟩ := List.forall_mem_append.1 hcallees
    exact .binary (hoperators _ rfl (by decide)) (ihf hflocals hfirst hl)
      (ihs hslocals hsecond hr)
  | ifThen condition body ih | loop condition body ih =>
    obtain ⟨l, r, hl, hr, rfl⟩ := Term.binaryOf_eq_ok.1 h
    obtain ⟨hclocals, hblocals⟩ := List.forall_mem_append.1 hlocals
    obtain ⟨hcondition, hbody⟩ := List.forall_mem_append.1 hcallees
    exact .binary (hoperators _ rfl (by decide))
      (Expr.toTerm_leaves hoperators hclocals hcondition hl) (ih hblocals hbody hr)
  | ifElse condition body alternative ihb iha =>
    obtain ⟨c, b, a, hc, hb, ha, rfl⟩ := toTerm_ifElse_eq_ok.1 h
    obtain ⟨hclocals, hlocals⟩ := List.forall_mem_append.1 hlocals
    obtain ⟨hblocals, halocals⟩ := List.forall_mem_append.1 hlocals
    obtain ⟨hcondition, hrest⟩ := List.forall_mem_append.1 hcallees
    obtain ⟨hbody, halternative⟩ := List.forall_mem_append.1 hrest
    exact ⟨.binary (hoperators _ rfl (by decide))
      (Expr.toTerm_leaves hoperators hclocals hcondition hc) (ihb hblocals hbody hb),
      iha halocals halternative ha⟩

namespace FunctionDef

variable {function : FunctionDef}

theorem abstract_leaves {body : Term}
    (hparams : ∀ param ∈ function.params, holds (.ofFunction param function.name))
    (h : body.Leaves holds) : (function.abstract body).Leaves holds := by
  unfold abstract
  generalize function.params = params at hparams
  induction params with
  | nil => exact h
  | cons param params ih =>
    obtain ⟨hparam, hparams⟩ := List.forall_mem_cons.1 hparams
    exact ⟨nofun, hparam, ih hparams⟩

/-- The names in the term of a function are its variables, operators, and what it calls. -/
theorem toTerm_leaves (hoperators : ∀ name, isOperator name = true → holds (.global name))
    (hlocals : ∀ name ∈ function.names, holds (.ofFunction name function.name))
    (hcallees : ∀ callee ∈ function.callees, holds (.global callee))
    (h : function.toTerm program = .ok term) : term.Leaves holds := by
  obtain ⟨result, inner, hresult, hinner, rfl⟩ := toTerm_eq_ok.1 h
  obtain ⟨-, hlocals⟩ := List.forall_mem_cons.1 hlocals
  obtain ⟨hparams, hlocals⟩ := List.forall_mem_append.1 hlocals
  obtain ⟨hbodyLocals, hresultLocals⟩ := List.forall_mem_append.1 hlocals
  obtain ⟨hbodyCallees, hresultCallees⟩ := List.forall_mem_append.1 hcallees
  have hothers (name : String) (hoperator : isOperator name = true) (_ : name ≠ "return") :
      holds (.global name) := hoperators name hoperator
  have hreturn : (Term.app (.global "return") result).Leaves holds :=
    ⟨hoperators _ rfl, Expr.toTerm_leaves hothers hresultLocals hresultCallees hresult⟩
  refine abstract_leaves hparams ?_
  cases hbody : function.body with
  | none =>
    rw [hbody] at hinner
    exact hinner ▸ hreturn
  | some body =>
    rw [hbody] at hinner hbodyLocals hbodyCallees
    obtain ⟨first, hfirst, rfl⟩ := hinner
    exact .binary (hoperators _ rfl)
      (Stmt.toTerm_leaves hothers hbodyLocals hbodyCallees hfirst) hreturn

/-- The term of a function is over the functions that it calls. -/
theorem toTerm_isOver (h : function.toTerm program = .ok term) : term.IsOver function.callees := by
  refine (toTerm_leaves (fun _ hoperator _ => .inl hoperator) (fun _ _ => nofun) ?_ h).isOver
  exact fun callee hmem _ => .inr hmem

end FunctionDef

end

end WhileLang

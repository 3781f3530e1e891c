import WhileLang.Proofs.Syntax.Calls
import WhileLang.Proofs.Term.Definitions
import WhileLang.Proofs.Term.Leaves

/-!
# The parts of a term

A walk over a term that ends well adds a row for each of its parts, in post-order.  Among the parts
of the term of a function are the terms of all calls in the function.

Main definitions:

- Function {lit}`Term.postOrder`: the parts of a term, each after its own parts.
- Relation {lit}`TypeEnv.LeadsTo`: what was collected is kept.

Main results:

- Theorem {lit}`Term.infer_postOrder`: the rows of a walk are those of the parts.
- Theorem {lit}`FunctionDef.exists_call_of_mem_calls`: calls of a function are parts of its term.
-/

namespace WhileLang

/-! ## Walks that end well -/

namespace Term

variable {term function argument body bound : Term} {before after : Inference} {type : Ty}

theorem infer_app_ok (h : (app function argument).infer before = (.ok type, after)) :
    ∃ functionType argumentType middle inside,
      function.infer before.within = (.ok functionType, middle)
        ∧ argument.infer middle = (.ok argumentType, inside) ∧ type = before.nodeType
        ∧ after = before.close (app function argument)
          (inside.withEnv (·.constrain functionType (.arrow argumentType before.nodeType))) := by
  rcases hfunction : function.infer before.within with ⟨error | functionType, middle⟩
  · simp only [Inference.within, TypeEnv.newNode, TypeEnv.fresh] at hfunction
    simp only [infer, TypeEnv.newNode, TypeEnv.fresh, hfunction] at h
    cases h
  rcases hargument : argument.infer middle with ⟨error | argumentType, inside⟩
  · simp only [Inference.within, TypeEnv.newNode, TypeEnv.fresh] at hfunction
    simp only [infer, TypeEnv.newNode, TypeEnv.fresh, hfunction, hargument] at h
    cases h
  · rw [infer_app hfunction hargument] at h
    cases h
    exact ⟨_, _, _, _, rfl, hargument, rfl, rfl⟩

theorem infer_abs_ok {param : TermVar} (h : (abs param body).infer before = (.ok type, after)) :
    ∃ bodyType inside, body.infer (before.withParam param) = (.ok bodyType, inside)
      ∧ type = before.nodeType
      ∧ after = before.close (abs param body) (inside.withEnv (·.constrain before.nodeType
        (.arrow (before.within.env.recordParam param).1 bodyType))) := by
  rcases hbody : body.infer (before.withParam param) with ⟨error | bodyType, inside⟩
  · simp only [Inference.withParam, Inference.within, TypeEnv.newNode, TypeEnv.fresh] at hbody
    simp only [infer, TypeEnv.newNode, TypeEnv.fresh, hbody] at h
    cases h
  · rw [infer_abs hbody] at h
    cases h
    exact ⟨_, _, rfl, rfl, rfl⟩

/-- What a definition binds was walked over well. -/
theorem infer_letIn_bound {name : TermVar}
    (h : (letIn name bound body).infer before = (.ok type, after)) :
    ∃ boundType solved, bound.infer (before.withName name) = (.ok boundType, solved) := by
  rcases hbound : bound.infer (before.withName name) with ⟨error | boundType, solved⟩
  · simp only [Inference.withName, Inference.within, TypeEnv.newNode, TypeEnv.fresh] at hbound
    simp only [infer, TypeEnv.newNode, TypeEnv.fresh, hbound] at h
    cases h
  · exact ⟨_, _, rfl⟩

/-- The type of a term is the type variable of its node. -/
theorem infer_type (h : term.infer before = (.ok type, after)) : type = before.nodeType := by
  induction term generalizing before type after with
  | var leaf =>
    cases h
    rfl
  | literal value =>
    cases h
    rfl
  | app function argument =>
    obtain ⟨_, _, _, _, -, -, htype, -⟩ := infer_app_ok h
    exact htype
  | abs param body =>
    obtain ⟨_, _, -, htype, -⟩ := infer_abs_ok h
    exact htype
  | letIn name bound body ih =>
    obtain ⟨boundType, solved, hbound⟩ := infer_letIn_bound h
    obtain rfl := ih hbound
    obtain ⟨_, _, _, -, -, htype, -⟩ := infer_letIn_ok hbound h
    exact htype

/-- A definition that ends well was walked over, and solved, before the term behind it. -/
theorem infer_letIn_solved {name : TermVar}
    (h : (letIn name bound body).infer before = (.ok type, after)) :
    ∃ solved solution inside,
      bound.infer (before.withName name) = (.ok (before.withName name).nodeType, solved)
        ∧ (before.defined name solved).env.solveFrom before.env.constraints.size = .ok solution
        ∧ body.infer (before.next name solved solution)
          = (.ok (before.next name solved solution).nodeType, inside)
        ∧ after = before.close (letIn name bound body) (inside.withEnv
          (·.constrain before.nodeType (before.next name solved solution).nodeType)) := by
  obtain ⟨boundType, solved, hbound⟩ := infer_letIn_bound h
  obtain rfl := infer_type hbound
  obtain ⟨solution, bodyType, inside, hsolution, hbody, -, hafter⟩ := infer_letIn_ok hbound h
  obtain rfl := infer_type hbody
  exact ⟨solved, solution, inside, hbound, hsolution, hbody, hafter⟩

end Term

/-! ## What is kept -/

/-- What was collected in an environment is kept in a later one. -/
structure TypeEnv.LeadsTo (before after : TypeEnv) : Prop where
  constraints : before.constraints.toList <+: after.constraints.toList
  subterms : before.subterms.toList <+: after.subterms.toList
  varTypes {var : TermVar} {type : Ty} :
    before.varTypes.lookup var = some type → after.varTypes.lookup var = some type

namespace TypeEnv

variable {before middle after : TypeEnv}

namespace LeadsTo

theorem refl (env : TypeEnv) : env.LeadsTo env :=
  ⟨List.prefix_rfl, List.prefix_rfl, id⟩

theorem trans (h : before.LeadsTo middle) (h' : middle.LeadsTo after) : before.LeadsTo after where
  constraints := h.constraints.trans h'.constraints
  subterms := h.subterms.trans h'.subterms
  varTypes hlookup := h'.varTypes (h.varTypes hlookup)

theorem solves (h : before.LeadsTo after) {assignment : String → Ty}
    (hsolves : Solves assignment after.constraints.toList) :
    Solves assignment before.constraints.toList :=
  fun constraint hmem => hsolves constraint (h.constraints.subset hmem)

theorem agrees (h : before.LeadsTo after) {assignment : String → Ty} {varTypes : TermVar → Ty}
    (hagrees : after.Agrees assignment varTypes) : before.Agrees assignment varTypes :=
  fun _ _ hlookup => hagrees _ _ (h.varTypes hlookup)

end LeadsTo

theorem Grows.leadsTo {constraints : List Constraint} {rows : List Subterm}
    (h : before.Grows after constraints rows) : before.LeadsTo after where
  constraints := ⟨constraints, h.constraints.symm⟩
  subterms := ⟨rows, h.subterms.symm⟩
  varTypes := h.varTypes

end TypeEnv

namespace Inference

variable (before inside : Inference) (term : Term) (name : TermVar) (left right : Ty)

theorem leadsTo_withName : before.env.LeadsTo (before.withName name).env := by
  obtain ⟨hgrows, -⟩ := before.within.env.grows_variableType name
  exact (before.grows_within.trans hgrows).leadsTo

theorem leadsTo_withParam : before.env.LeadsTo (before.withParam name).env := by
  obtain ⟨row, hgrows, -⟩ := before.within.env.recordParam_spec name
  exact (before.grows_within.trans hgrows).leadsTo

theorem leadsTo_close :
    inside.env.LeadsTo (before.close term (inside.withEnv (·.constrain left right))).env :=
  ((inside.env.grows_constrain left right).trans (TypeEnv.grows_record ..)).leadsTo

theorem leadsTo_next (solved : Inference) (solution : Subst) :
    (before.defined name solved).env.LeadsTo (before.next name solved solution).env where
  constraints := List.prefix_rfl
  subterms := List.prefix_rfl
  varTypes := id

end Inference

/-- A walk that ends well keeps what was collected before it. -/
theorem Term.infer_leadsTo {term : Term} {before after : Inference} {type : Ty}
    (h : term.infer before = (.ok type, after)) : before.env.LeadsTo after.env := by
  induction term generalizing before after type with
  | var leaf =>
    obtain ⟨hgrows, -⟩ := before.within.env.leaf_spec leaf
    cases h
    exact (before.grows_within.trans hgrows).leadsTo.trans
      (before.leadsTo_close ⟨_, before.reports⟩ (.var leaf) _ _)
  | literal value =>
    cases h
    exact before.grows_within.leadsTo.trans
      (before.leadsTo_close before.within (.literal value) _ _)
  | app function argument ihf iha =>
    obtain ⟨_, _, middle, inside, hfunction, hargument, -, rfl⟩ := infer_app_ok h
    exact ((before.grows_within.leadsTo.trans (ihf hfunction)).trans (iha hargument)).trans
      (before.leadsTo_close inside _ _ _)
  | abs param body ih =>
    obtain ⟨_, inside, hbody, -, rfl⟩ := infer_abs_ok h
    exact ((before.leadsTo_withParam param).trans (ih hbody)).trans
      (before.leadsTo_close inside _ _ _)
  | letIn name bound body ihb iha =>
    obtain ⟨solved, solution, inside, hbound, -, hbody, rfl⟩ := infer_letIn_solved h
    have hdefined : solved.env.LeadsTo (before.defined name solved).env :=
      (solved.env.grows_constrain _ _).leadsTo
    exact ((((before.leadsTo_withName name).trans (ihb hbound)).trans hdefined).trans
      (before.leadsTo_next name solved solution)).trans
        ((iha hbody).trans (before.leadsTo_close inside _ _ _))

/-! ## Rows -/

/-- The parts of a term, each after its own parts, and a parameter before the body. -/
def Term.postOrder : Term → List Term
  | .var leaf => [.var leaf]
  | .literal value => [.literal value]
  | .app function argument =>
    function.postOrder ++ argument.postOrder ++ [.app function argument]
  | .abs param body => .var param :: (body.postOrder ++ [.abs param body])
  | .letIn name bound body => bound.postOrder ++ body.postOrder ++ [.letIn name bound body]

/-- The terms that have rows. -/
def Inference.terms (inference : Inference) : List Term :=
  inference.env.subterms.toList.map (·.term)

namespace Inference

variable (before inside : Inference) (term : Term) (name : TermVar) (left right : Ty)

theorem terms_close : (before.close term (inside.withEnv (·.constrain left right))).terms
    = inside.terms ++ [term] := by
  rw [terms, subterms_close, List.map_append]
  rfl

theorem terms_withParam : (before.withParam name).terms = before.terms ++ [.var name] := by
  obtain ⟨row, hgrows, hterm, -⟩ := before.within.env.recordParam_spec name
  have hrows := (before.grows_within.trans hgrows).subterms
  simp only [List.nil_append] at hrows
  rw [terms, terms, ← hterm]
  exact (congrArg (List.map (·.term)) hrows).trans List.map_append

theorem terms_withName : (before.withName name).terms = before.terms := by
  obtain ⟨hgrows, -⟩ := before.within.env.grows_variableType name
  have hrows := (before.grows_within.trans hgrows).subterms
  rw [List.append_nil, List.append_nil] at hrows
  exact congrArg (List.map (·.term)) hrows

end Inference

/-- A walk that ends well adds a row for every part of the term, in post-order. -/
theorem Term.infer_postOrder {term : Term} {before after : Inference} {type : Ty}
    (h : term.infer before = (.ok type, after)) : after.terms = before.terms ++ term.postOrder := by
  induction term generalizing before after type with
  | var leaf =>
    obtain ⟨hgrows, -⟩ := before.within.env.leaf_spec leaf
    cases h
    have hrows := (before.grows_within.trans hgrows).subterms
    rw [List.append_nil, List.append_nil] at hrows
    exact (before.terms_close ⟨_, before.reports⟩ (.var leaf) _ _).trans
      (congrArg (List.map (·.term) · ++ [.var leaf]) hrows)
  | literal value =>
    cases h
    exact before.terms_close before.within (.literal value) _ _
  | app function argument ihf iha =>
    obtain ⟨_, _, middle, inside, hfunction, hargument, -, rfl⟩ := infer_app_ok h
    rw [Inference.terms_close, iha hargument, ihf hfunction, postOrder, List.append_assoc,
      List.append_assoc, List.append_assoc]
    rfl
  | abs param body ih =>
    obtain ⟨_, inside, hbody, -, rfl⟩ := infer_abs_ok h
    rw [Inference.terms_close, ih hbody, Inference.terms_withParam, postOrder]
    simp
  | letIn name bound body ihb iha =>
    obtain ⟨solved, solution, inside, hbound, -, hbody, rfl⟩ := infer_letIn_solved h
    have hnext : (before.next name solved solution).terms = solved.terms := rfl
    rw [Inference.terms_close, iha hbody, hnext, ihb hbound, Inference.terms_withName, postOrder,
      List.append_assoc, List.append_assoc, List.append_assoc]

namespace Walked

variable {scope : String} {term : Term} {before after : Inference} {constraints : List Constraint}
  {rows : List Subterm}

theorem drop_subterms (h : Walked scope term before after constraints rows) :
    after.env.subterms.toList.drop before.env.subterms.size = rows := by
  rw [h.grows.subterms, ← Array.length_toList, List.drop_left]

/-- The rows of a walk are those of the parts of its term. -/
theorem map_term (h : Walked scope term before after constraints rows) {type : Ty}
    (hinfer : term.infer before = (.ok type, after)) : rows.map (·.term) = term.postOrder := by
  have hterms := congrArg (List.map (·.term)) h.grows.subterms
  rw [List.map_append] at hterms
  exact List.append_cancel_left (hterms.symm.trans (Term.infer_postOrder hinfer))

end Walked

/-! ## The parts of translated terms -/

namespace Term

variable {holds : TermVar → Prop} {term part : Term}

theorem mem_postOrder_self (term : Term) : term ∈ term.postOrder := by
  cases term with
  | var | literal => exact List.mem_singleton_self _
  | app | letIn => exact List.mem_append_right _ (List.mem_singleton_self _)
  | abs => exact List.mem_cons_of_mem _ (List.mem_append_right _ (List.mem_singleton_self _))

theorem postOrder_subset_app_left (function argument : Term) :
    function.postOrder ⊆ (app function argument).postOrder :=
  fun _ hmem => List.mem_append_left _ (List.mem_append_left _ hmem)

theorem postOrder_subset_app_right (function argument : Term) :
    argument.postOrder ⊆ (app function argument).postOrder :=
  fun _ hmem => List.mem_append_left _ (List.mem_append_right _ hmem)

theorem postOrder_subset_binary_left (operator : String) (left right : Term) :
    left.postOrder ⊆ (binary operator left right).postOrder :=
  List.Subset.trans (postOrder_subset_app_right (global operator) left)
    (postOrder_subset_app_left _ right)

theorem postOrder_subset_foldl_app (function : Term) (arguments : List Term) :
    function.postOrder ⊆ (arguments.foldl app function).postOrder := by
  induction arguments generalizing function with
  | nil => exact List.Subset.refl _
  | cons argument rest ih =>
    exact List.Subset.trans (postOrder_subset_app_left function argument) (ih _)

theorem postOrder_subset_foldl_app_of_mem {argument : Term} {arguments : List Term}
    (h : argument ∈ arguments) (function : Term) :
    argument.postOrder ⊆ (arguments.foldl app function).postOrder := by
  induction arguments generalizing function with
  | nil => cases h
  | cons first rest ih =>
    rcases List.mem_cons.1 h with rfl | h
    · exact List.Subset.trans (postOrder_subset_app_right function argument)
        (postOrder_subset_foldl_app _ rest)
    · exact ih h _

/-- What holds of all names in a term holds of those in its parts. -/
theorem Leaves.of_mem_postOrder (h : term.Leaves holds) (hmem : part ∈ term.postOrder) :
    part.Leaves holds := by
  induction term with
  | var | literal => exact List.mem_singleton.1 hmem ▸ h
  | app function argument ihf iha =>
    rcases List.mem_append.1 hmem with hmem | hmem
    · exact (List.mem_append.1 hmem).elim (ihf h.1) (iha h.2)
    · exact List.mem_singleton.1 hmem ▸ h
  | abs param body ih =>
    rcases List.mem_cons.1 hmem with rfl | hmem
    · exact h.2.1
    rcases List.mem_append.1 hmem with hmem | hmem
    · exact ih h.2.2 hmem
    · exact List.mem_singleton.1 hmem ▸ h
  | letIn => exact h.elim

end Term

section

variable {program : Program} {scope name : String} {args : List Expr} {term : Term}

/-- The calls in an expression are translated to parts of its term. -/
theorem Expr.exists_call_of_mem_calls {expr : Expr} (h : expr.toTerm program scope = .ok term)
    (hmem : (name, args) ∈ expr.calls) :
    ∃ part ∈ term.postOrder, (call name args).toTerm program scope = .ok part := by
  induction expr generalizing term with
  | literal | var => cases hmem
  | math op left right ihl ihr | compare op left right ihl ihr | logic op left right ihl ihr =>
    obtain ⟨l, r, hl, hr, rfl⟩ := Term.binaryOf_eq_ok.1 h
    rcases List.mem_append.1 hmem with hmem | hmem
    · obtain ⟨part, hpart, hcall⟩ := ihl hl hmem
      exact ⟨part, Term.postOrder_subset_binary_left _ l r hpart, hcall⟩
    · obtain ⟨part, hpart, hcall⟩ := ihr hr hmem
      exact ⟨part, Term.postOrder_subset_app_right _ r hpart, hcall⟩
  | not operand ih =>
    obtain ⟨inner, hinner, rfl⟩ := toTerm_not_eq_ok.1 h
    obtain ⟨part, hpart, hcall⟩ := ih hinner hmem
    exact ⟨part, Term.postOrder_subset_app_right _ inner hpart, hcall⟩
  | call other others ih =>
    rcases List.mem_cons.1 hmem with heq | hmem
    · cases heq
      exact ⟨term, term.mem_postOrder_self, h⟩
    · obtain ⟨-, terms, hterms, rfl⟩ := toTerm_call_eq_ok.1 h
      obtain ⟨arg, harg, hmem⟩ := mem_callsOfArgs.1 hmem
      obtain ⟨argument, hargument, hterm⟩ := exists_of_forall₂ hterms.flip harg
      obtain ⟨part, hpart, hcall⟩ := ih arg harg hterm hmem
      exact ⟨part, Term.postOrder_subset_foldl_app_of_mem hargument _ hpart, hcall⟩

theorem Stmt.exists_call_of_mem_calls {stmt : Stmt} (h : stmt.toTerm program scope = .ok term)
    (hmem : (name, args) ∈ stmt.calls) :
    ∃ part ∈ term.postOrder, (Expr.call name args).toTerm program scope = .ok part := by
  induction stmt generalizing term with
  | assign other value =>
    obtain ⟨l, r, -, hr, rfl⟩ := Term.binaryOf_eq_ok.1 h
    obtain ⟨part, hpart, hcall⟩ := Expr.exists_call_of_mem_calls hr hmem
    exact ⟨part, Term.postOrder_subset_app_right _ r hpart, hcall⟩
  | seq first second ihf ihs =>
    obtain ⟨l, r, hl, hr, rfl⟩ := Term.binaryOf_eq_ok.1 h
    rcases List.mem_append.1 hmem with hmem | hmem
    · obtain ⟨part, hpart, hcall⟩ := ihf hl hmem
      exact ⟨part, Term.postOrder_subset_binary_left _ l r hpart, hcall⟩
    · obtain ⟨part, hpart, hcall⟩ := ihs hr hmem
      exact ⟨part, Term.postOrder_subset_app_right _ r hpart, hcall⟩
  | ifThen condition body ih | loop condition body ih =>
    obtain ⟨l, r, hl, hr, rfl⟩ := Term.binaryOf_eq_ok.1 h
    rcases List.mem_append.1 hmem with hmem | hmem
    · obtain ⟨part, hpart, hcall⟩ := Expr.exists_call_of_mem_calls hl hmem
      exact ⟨part, Term.postOrder_subset_binary_left _ l r hpart, hcall⟩
    · obtain ⟨part, hpart, hcall⟩ := ih hr hmem
      exact ⟨part, Term.postOrder_subset_app_right _ r hpart, hcall⟩
  | ifElse condition body alternative ihb iha =>
    obtain ⟨c, b, a, hc, hb, ha, rfl⟩ := toTerm_ifElse_eq_ok.1 h
    have hchosen := Term.postOrder_subset_app_left (.binary "if-else" c b) a
    rcases List.mem_append.1 hmem with hmem | hmem
    · obtain ⟨part, hpart, hcall⟩ := Expr.exists_call_of_mem_calls hc hmem
      exact ⟨part, hchosen (Term.postOrder_subset_binary_left _ c b hpart), hcall⟩
    rcases List.mem_append.1 hmem with hmem | hmem
    · obtain ⟨part, hpart, hcall⟩ := ihb hb hmem
      exact ⟨part, hchosen (Term.postOrder_subset_app_right _ b hpart), hcall⟩
    · obtain ⟨part, hpart, hcall⟩ := iha ha hmem
      exact ⟨part, Term.postOrder_subset_app_right _ a hpart, hcall⟩

namespace FunctionDef

variable {function : FunctionDef}

theorem postOrder_subset_abstract (body : Term) :
    body.postOrder ⊆ (function.abstract body).postOrder := by
  unfold abstract
  induction function.params with
  | nil => exact List.Subset.refl _
  | cons param params ih =>
    exact fun _ hmem => List.mem_cons_of_mem _ (List.mem_append_left _ (ih hmem))

/-- The calls in a function are translated to parts of its term. -/
theorem exists_call_of_mem_calls (h : function.toTerm program = .ok term)
    (hmem : (name, args) ∈ function.calls) :
    ∃ part ∈ term.postOrder, (Expr.call name args).toTerm program function.name = .ok part := by
  obtain ⟨result, inner, hresult, hinner, rfl⟩ := toTerm_eq_ok.1 h
  suffices hpart : ∃ part ∈ inner.postOrder,
      (Expr.call name args).toTerm program function.name = .ok part by
    obtain ⟨part, hpart, hcall⟩ := hpart
    exact ⟨part, postOrder_subset_abstract inner hpart, hcall⟩
  have hreturn (hmem : (name, args) ∈ function.result.calls) :
      ∃ part ∈ (Term.app (.global "return") result).postOrder,
        (Expr.call name args).toTerm program function.name = .ok part := by
    obtain ⟨part, hpart, hcall⟩ := Expr.exists_call_of_mem_calls hresult hmem
    exact ⟨part, Term.postOrder_subset_app_right _ result hpart, hcall⟩
  unfold calls at hmem
  cases hbody : function.body with
  | none =>
    rw [hbody] at hinner hmem
    obtain rfl := hinner
    exact hreturn hmem
  | some body =>
    rw [hbody] at hinner hmem
    obtain ⟨first, hfirst, rfl⟩ := hinner
    rcases List.mem_append.1 hmem with hmem | hmem
    · obtain ⟨part, hpart, hcall⟩ := Stmt.exists_call_of_mem_calls hfirst hmem
      exact ⟨part, Term.postOrder_subset_binary_left _ first _ hpart, hcall⟩
    · obtain ⟨part, hpart, hcall⟩ := hreturn hmem
      exact ⟨part, Term.postOrder_subset_app_right _ _ hpart, hcall⟩

end FunctionDef

end

end WhileLang

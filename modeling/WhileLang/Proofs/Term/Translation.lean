import Mathlib.Data.List.Forall2
import WhileLang.Proofs.Syntax.Names
import WhileLang.Proofs.Term.Typing

/-!
# Typing of translated programs

What the term of an expression, a statement or a function says about it: a typing of the term is a
typing of the tree it was made from.

Main definitions:

- Predicate {lit}`CallsInstances`: where the types of called names are instances of general types.

Main results:

- Theorems {lit}`Expr.toTerm_belongsTo` and {lit}`FunctionDef.toTerm_belongsTo`.
- Theorems {lit}`Expr.hasType_of_toTerm`, {lit}`Stmt.isTyped_of_toTerm` and
  {lit}`FunctionDef.returns_of_toTerm`.
-/

namespace WhileLang

/-! ## Results of the translation -/

/-- A computation of two steps ends well if both steps do. -/
theorem bind_eq_ok {ε α β : Type} {first : Except ε α} {second : α → Except ε β} {result : β} :
    (first >>= second) = .ok result ↔ ∃ value, first = .ok value ∧ second value = .ok result := by
  cases first with
  | error _ => simp [bind, Except.bind]
  | ok value => simp [bind, Except.bind]

theorem exists_of_isOk {α ε : Type} {result : Except ε α} (h : result.isOk = true) :
    ∃ value, result = .ok value := by
  cases result with
  | error error => cases h
  | ok value => exact ⟨value, rfl⟩

namespace Term

/-- A translation with two parts ends well if both parts do. -/
theorem binaryOf_eq_ok {operator : String} {left right : Except SemanticError Term} {term : Term} :
    binaryOf operator left right = .ok term ↔
      ∃ l r, left = .ok l ∧ right = .ok r ∧ term = .binary operator l r := by
  simp only [binaryOf, bind_eq_ok, pure, Except.pure, Except.ok.injEq, eq_comm (a := term)]
  tauto

end Term

namespace Expr

variable {program : Program} {scope : String}

/-- A call is translated if its name is defined and its arguments are translated. -/
theorem applyTo_eq_ok {function term : Term} {args : List Expr} :
    toTerm.applyTo program scope function args = .ok term ↔
      ∃ terms, List.Forall₂ (fun arg term => arg.toTerm program scope = .ok term) args terms
        ∧ term = terms.foldl .app function := by
  induction args generalizing function with
  | nil => simp [toTerm.applyTo, eq_comm]
  | cons arg args ih =>
    simp only [toTerm.applyTo, bind_eq_ok, ih]
    constructor
    · rintro ⟨first, hfirst, terms, hterms, rfl⟩
      exact ⟨first :: terms, .cons hfirst hterms, rfl⟩
    · rintro ⟨_, hterms, rfl⟩
      cases hterms with
      | cons hfirst hterms => exact ⟨_, hfirst, _, hterms, rfl⟩

theorem toTerm_call_eq_ok {name : String} {args : List Expr} {term : Term} :
    (call name args).toTerm program scope = .ok term ↔
      program.defines name = true ∧
      ∃ terms, List.Forall₂ (fun arg term => arg.toTerm program scope = .ok term) args terms
        ∧ term = terms.foldl .app (.global name) := by
  rw [toTerm]
  split
  · rename_i h
    simp only [h, true_and, applyTo_eq_ok]
  · rename_i h
    simp [h]

theorem toTerm_not_eq_ok {operand : Expr} {term : Term} :
    (not operand).toTerm program scope = .ok term ↔
      ∃ inner, operand.toTerm program scope = .ok inner ∧ term = .app (.global "!") inner := by
  simp only [toTerm, bind_eq_ok, pure, Except.pure, Except.ok.injEq, eq_comm (a := term)]

end Expr

theorem Stmt.toTerm_ifElse_eq_ok {program : Program} {scope : String} {condition : Expr}
    {body alternative : Stmt} {term : Term} :
    (ifElse condition body alternative).toTerm program scope = .ok term ↔
      ∃ c b a, condition.toTerm program scope = .ok c ∧ body.toTerm program scope = .ok b
        ∧ alternative.toTerm program scope = .ok a
        ∧ term = .app (.binary "if-else" c b) a := by
  simp only [toTerm, bind_eq_ok, Term.binaryOf_eq_ok, pure, Except.pure, Except.ok.injEq,
    eq_comm (a := term)]
  constructor
  · rintro ⟨_, ⟨c, b, hc, hb, rfl⟩, a, ha, h⟩
    exact ⟨c, b, a, hc, hb, ha, h⟩
  · rintro ⟨c, b, a, hc, hb, ha, h⟩
    exact ⟨_, ⟨c, b, hc, hb, rfl⟩, a, ha, h⟩

/-! ## Terms of one function -/

theorem exists_of_forall₂ {α β : Type} {R : α → β → Prop} {left : List α} {right : List β}
    (h : List.Forall₂ R left right) {b : β} (hb : b ∈ right) : ∃ a ∈ left, R a b := by
  induction h with
  | nil => cases hb
  | cons hfirst _ ih =>
    rcases List.mem_cons.1 hb with rfl | hb
    · exact ⟨_, List.mem_cons_self, hfirst⟩
    · obtain ⟨a, ha, hab⟩ := ih hb
      exact ⟨a, List.mem_cons_of_mem _ ha, hab⟩

/-- An identifier cannot be taken for a variable of a function. -/
theorem not_infix_of_isIdentifier {name : String} (h : isIdentifier name = true) :
    ¬ [':', ':'] <:+: name.toList := by
  intro hcolons
  have hrest := isIdentifierRest_of_mem h (hcolons.subset List.mem_cons_self)
  exact absurd hrest (by decide)

namespace Term

variable {scope : String}

theorem belongsTo_global {name : String} (h : ¬ [':', ':'] <:+: name.toList) :
    (global name).BelongsTo scope :=
  Or.inr ⟨rfl, h⟩

theorem BelongsTo.binary {operator : String} {left right : Term}
    (hoperator : ¬ [':', ':'] <:+: operator.toList) (hleft : left.BelongsTo scope)
    (hright : right.BelongsTo scope) : (binary operator left right).BelongsTo scope :=
  ⟨⟨belongsTo_global hoperator, hleft⟩, hright⟩

theorem BelongsTo.foldl_app {function : Term} {arguments : List Term}
    (hfunction : function.BelongsTo scope)
    (harguments : ∀ argument ∈ arguments, argument.BelongsTo scope) :
    (arguments.foldl app function).BelongsTo scope := by
  induction arguments generalizing function with
  | nil => exact hfunction
  | cons argument rest ih =>
    rw [List.forall_mem_cons] at harguments
    exact ih ⟨hfunction, harguments.1⟩ harguments.2

end Term

theorem Expr.toTerm_belongsTo {program : Program} {scope : String} {expr : Expr} {term : Term}
    (hnamed : IsNamed expr.callees) (h : expr.toTerm program scope = .ok term) :
    term.BelongsTo scope := by
  induction expr generalizing term with
  | literal value =>
    cases h
    trivial
  | var name =>
    cases h
    exact Or.inl rfl
  | math op left right ihl ihr | compare op left right ihl ihr | logic op left right ihl ihr =>
    obtain ⟨l, r, hl, hr, rfl⟩ := Term.binaryOf_eq_ok.1 h
    obtain ⟨hlnamed, hrnamed⟩ := isNamed_append.1 hnamed
    refine .binary ?_ (ihl hlnamed hl) (ihr hrnamed hr)
    cases op
    all_goals decide
  | not operand ih =>
    obtain ⟨inner, hinner, rfl⟩ := toTerm_not_eq_ok.1 h
    exact ⟨Term.belongsTo_global (by decide), ih hnamed hinner⟩
  | call name args ih =>
    obtain ⟨-, terms, hterms, rfl⟩ := toTerm_call_eq_ok.1 h
    obtain ⟨hname, hargs⟩ := isNamed_cons.1 hnamed
    refine .foldl_app (Term.belongsTo_global (not_infix_of_isIdentifier hname)) fun term hmem => ?_
    obtain ⟨arg, harg, hterm⟩ := exists_of_forall₂ hterms hmem
    refine ih arg harg (fun other hother => ?_) hterm
    exact hargs other (mem_calleesOfArgs.2 ⟨arg, harg, hother⟩)

theorem Stmt.toTerm_belongsTo {program : Program} {scope : String} {stmt : Stmt} {term : Term}
    (hnamed : IsNamed stmt.callees) (h : stmt.toTerm program scope = .ok term) :
    term.BelongsTo scope := by
  induction stmt generalizing term with
  | assign name value =>
    obtain ⟨l, r, hl, hr, rfl⟩ := Term.binaryOf_eq_ok.1 h
    cases hl
    exact .binary (by decide +kernel) (Or.inl rfl) (Expr.toTerm_belongsTo hnamed hr)
  | seq first second ihf ihs =>
    obtain ⟨l, r, hl, hr, rfl⟩ := Term.binaryOf_eq_ok.1 h
    obtain ⟨hfirst, hsecond⟩ := isNamed_append.1 hnamed
    exact .binary (by decide +kernel) (ihf hfirst hl) (ihs hsecond hr)
  | ifThen condition body ih | loop condition body ih =>
    obtain ⟨l, r, hl, hr, rfl⟩ := Term.binaryOf_eq_ok.1 h
    obtain ⟨hcondition, hbody⟩ := isNamed_append.1 hnamed
    exact .binary (by decide +kernel) (Expr.toTerm_belongsTo hcondition hl) (ih hbody hr)
  | ifElse condition body alternative ihb iha =>
    obtain ⟨hcondition, hrest⟩ := isNamed_append.1 hnamed
    obtain ⟨hbody, halternative⟩ := isNamed_append.1 hrest
    obtain ⟨c, b, a, hc, hb, ha, rfl⟩ := toTerm_ifElse_eq_ok.1 h
    refine ⟨.binary ?_ (Expr.toTerm_belongsTo hcondition hc) (ihb hbody hb), iha halternative ha⟩
    decide +kernel

/-- An abstraction over parameters is one over an application or an abstraction. -/
theorem FunctionDef.abstract_belongsTo {function : FunctionDef} {body : Term}
    (hbody : body.BelongsTo function.name) (hcompound : body.isCompound = true) :
    (function.abstract body).BelongsTo function.name
      ∧ (function.abstract body).isCompound = true := by
  unfold abstract
  induction function.params with
  | nil => exact ⟨hbody, hcompound⟩
  | cons param params ih => exact ⟨⟨rfl, ih.1, ih.2⟩, rfl⟩

namespace FunctionDef

variable {program : Program} {function : FunctionDef} {term : Term}

/-- The term of a function abstracts over the application that stands for its body. -/
theorem toTerm_eq_ok :
    function.toTerm program = .ok term ↔
      ∃ result inner, function.result.toTerm program function.name = .ok result
        ∧ (match function.body with
          | none => inner = .app (.global "return") result
          | some body => ∃ first, body.toTerm program function.name = .ok first
              ∧ inner = .binary ";" first (.app (.global "return") result))
        ∧ term = function.abstract inner := by
  simp only [toTerm, bind_eq_ok]
  cases function.body with
  | none => simp [pure, Except.pure, eq_comm]
  | some body =>
    simp only [bind_eq_ok, pure, Except.pure, Except.ok.injEq, eq_comm (a := term)]
    constructor
    · rintro ⟨result, hresult, first, hfirst, h⟩
      exact ⟨result, _, hresult, ⟨first, hfirst, rfl⟩, h⟩
    · rintro ⟨result, _, hresult, ⟨first, hfirst, rfl⟩, h⟩
      exact ⟨result, hresult, first, hfirst, h⟩

theorem toTerm_belongsTo (hnamed : IsNamed function.callees)
    (h : function.toTerm program = .ok term) : term.BelongsTo function.name := by
  obtain ⟨result, inner, hresult, hinner, rfl⟩ := toTerm_eq_ok.1 h
  obtain ⟨hbodyNamed, hresultNamed⟩ := isNamed_append.1 hnamed
  have hreturn : (Term.app (.global "return") result).BelongsTo function.name :=
    ⟨Term.belongsTo_global (by decide +kernel), Expr.toTerm_belongsTo hresultNamed hresult⟩
  cases hbody : function.body with
  | none =>
    rw [hbody] at hinner
    cases hinner
    exact (abstract_belongsTo hreturn rfl).1
  | some body =>
    rw [hbody] at hinner hbodyNamed
    obtain ⟨first, hfirst, rfl⟩ := hinner
    refine (abstract_belongsTo (.binary ?_ ?_ hreturn) rfl).1
    · decide +kernel
    · exact Stmt.toTerm_belongsTo hbodyNamed hfirst

end FunctionDef

/-! ## Typings of names -/

theorem MathOp.builtinType?_symbol (op : MathOp) :
    builtinType? op.symbol = some (.arrow .int (.arrow .int .int)) := by
  cases op <;> rfl

theorem CompareOp.builtinType?_symbol (op : CompareOp) :
    builtinType? op.symbol = some (.arrow .int (.arrow .int .bool)) := by
  cases op <;> rfl

theorem LogicOp.builtinType?_symbol (op : LogicOp) :
    builtinType? op.symbol = some (.arrow .bool (.arrow .bool .bool)) := by
  cases op <;> rfl

section

variable {signature? : String → Option Ty} {varTypes : TermVar → Ty} {type : Ty}

namespace TermVar

theorem HasType.eq_variable {name function : String}
    (h : (ofFunction name function).HasType signature? varTypes type) :
    type = varTypes (ofFunction name function) :=
  h

theorem HasType.eq_builtin {name : String} {builtin : Ty}
    (h : (global name).HasType signature? varTypes type)
    (hbuiltin : builtinType? name = some builtin) : type = builtin := by
  simpa [HasType, global, hbuiltin] using h

theorem HasType.eq_scheme {name : String} {scheme : Ty → Ty}
    (h : (global name).HasType signature? varTypes type) (hbuiltin : builtinType? name = none)
    (hscheme : schemeType? name = some scheme) : ∃ parameter, type = scheme parameter := by
  simpa [HasType, global, hbuiltin, hscheme] using h

/-- Operators are not written like identifiers. -/
theorem builtinType?_of_isIdentifier {name : String} (h : isIdentifier name = true) :
    builtinType? name = none := by
  unfold builtinType?
  split
  all_goals first
    | rfl
    | exact absurd h (by decide +kernel)

theorem schemeType?_of_isIdentifier {name : String} (h : isIdentifier name = true) :
    schemeType? name = none := by
  unfold schemeType?
  split
  all_goals first
    | rfl
    | exact absurd h (by decide +kernel)

/-- A function that is solved has instances of its type, and any other one the type of its name. -/
theorem hasType_global_iff {name : String} (h : isIdentifier name = true) :
    (global name).HasType signature? varTypes type ↔
      match signature? name with
      | some general => type.IsInstance general
      | none => type = varTypes (global name) := by
  have hbuiltin := builtinType?_of_isIdentifier h
  have hscheme := schemeType?_of_isIdentifier h
  cases hsignature : signature? name with
  | none => simp [HasType, global, hbuiltin, hscheme, hsignature]
  | some general => simp [HasType, global, hbuiltin, hscheme, hsignature]

end TermVar

namespace Term

theorem HasType.of_binary {operator : String} {left right : Term}
    (h : (binary operator left right).HasType signature? varTypes type) :
    ∃ domain domain',
      (TermVar.global operator).HasType signature? varTypes (.arrow domain (.arrow domain' type))
        ∧ left.HasType signature? varTypes domain ∧ right.HasType signature? varTypes domain' := by
  cases h with
  | app hfunction hright =>
    cases hfunction with
    | app hoperator hleft =>
      cases hoperator with
      | var hleaf => exact ⟨_, _, hleaf, hleft, hright⟩

/-- The operands and the result of an operator with a fixed type. -/
theorem HasType.of_builtin {operator : String} {left right : Term} {domain domain' codomain : Ty}
    (h : (binary operator left right).HasType signature? varTypes type)
    (hbuiltin : builtinType? operator = some (.arrow domain (.arrow domain' codomain))) :
    left.HasType signature? varTypes domain ∧ right.HasType signature? varTypes domain'
      ∧ type = codomain := by
  obtain ⟨_, _, hoperator, hleft, hright⟩ := h.of_binary
  have heq := hoperator.eq_builtin hbuiltin
  simp only [Ty.arrow.injEq] at heq
  obtain ⟨rfl, rfl, rfl⟩ := heq
  exact ⟨hleft, hright, rfl⟩

/-- The first part of a chain has the type of statements, the second part that of the chain. -/
theorem hasType_chain {left right : Term} :
    (binary ";" left right).HasType signature? varTypes type ↔
      left.HasType signature? varTypes .unit ∧ right.HasType signature? varTypes type := by
  constructor
  · intro h
    obtain ⟨domain, domain', hoperator, hleft, hright⟩ := h.of_binary
    obtain ⟨parameter, heq⟩ := hoperator.eq_scheme rfl rfl
    simp only [Ty.arrow.injEq] at heq
    obtain ⟨rfl, rfl, rfl⟩ := heq
    exact ⟨hleft, hright⟩
  · rintro ⟨hleft, hright⟩
    have hoperator : (TermVar.global ";").HasType signature? varTypes
        (.arrow .unit (.arrow type type)) := ⟨type, rfl⟩
    exact .app (.app (.var hoperator) hleft) hright

/-- An application to several arguments takes them one after the other. -/
theorem HasType.of_foldl_app {function : Term} {arguments : List Term}
    (h : (arguments.foldl Term.app function).HasType signature? varTypes type) :
    ∃ types, function.HasType signature? varTypes (.arrows types type)
      ∧ List.Forall₂ (HasType signature? varTypes) arguments types := by
  induction arguments generalizing function with
  | nil => exact ⟨[], h, .nil⟩
  | cons argument rest ih =>
    obtain ⟨types, hfunction, hrest⟩ := ih h
    cases hfunction with
    | app hfunction hargument => exact ⟨_ :: types, hfunction, .cons hargument hrest⟩

end Term

/-! ## Typings of trees -/

/-- Wherever a called name has a type, it is an instance of the general type of the name. -/
def CallsInstances (program : Program) (signature? : String → Option Ty)
    (varTypes : TermVar → Ty) (general? : String → Option Ty) (names : List String) : Prop :=
  ∀ name ∈ names, program.defines name = true → ∀ type : Ty,
    (TermVar.global name).HasType signature? varTypes type →
      ∃ general, general? name = some general ∧ type.IsInstance general

variable {program : Program} {general? : String → Option Ty}

theorem CallsInstances.mono {names others : List String}
    (h : CallsInstances program signature? varTypes general? names)
    (hsub : ∀ name ∈ others, name ∈ names) :
    CallsInstances program signature? varTypes general? others :=
  fun name hmem => h name (hsub name hmem)

theorem callsInstances_append {first second : List String} :
    CallsInstances program signature? varTypes general? (first ++ second) ↔
      CallsInstances program signature? varTypes general? first
        ∧ CallsInstances program signature? varTypes general? second := by
  simp only [CallsInstances, List.mem_append, or_imp, forall_and]

theorem Expr.argsHaveTypes_of_toTerm {scope : String} {args : List Expr} {terms : List Term}
    {types : List Ty} (ih : ∀ arg ∈ args, ∀ {type : Ty} {term : Term},
      CallsInstances program signature? varTypes general? arg.callees →
        arg.toTerm program scope = .ok term → term.HasType signature? varTypes type →
          arg.HasType general? (fun name => varTypes (.ofFunction name scope)) type)
    (hcalls : CallsInstances program signature? varTypes general? (callees.calleesOfArgs args))
    (hterms : List.Forall₂ (fun arg term => arg.toTerm program scope = .ok term) args terms)
    (htypes : List.Forall₂ (Term.HasType signature? varTypes) terms types) :
    ArgsHaveTypes general? (fun name => varTypes (.ofFunction name scope)) args types := by
  induction hterms generalizing types with
  | nil =>
    cases htypes
    exact .nil
  | cons harg _ ihargs =>
    rw [List.forall_mem_cons] at ih
    obtain ⟨hfirst, hrest⟩ := callsInstances_append.1 hcalls
    cases htypes with
    | cons htype htypes => exact .cons (ih.1 hfirst harg htype) (ihargs ih.2 hrest htypes)

/-- An expression has the types of its term. -/
theorem Expr.hasType_of_toTerm {scope : String} {expr : Expr} {term : Term}
    (hcalls : CallsInstances program signature? varTypes general? expr.callees)
    (hterm : expr.toTerm program scope = .ok term)
    (htype : term.HasType signature? varTypes type) :
    expr.HasType general? (fun name => varTypes (.ofFunction name scope)) type := by
  induction expr generalizing term type with
  | literal value =>
    cases hterm
    cases htype
    exact .literal value
  | var name =>
    cases hterm
    cases htype with
    | var hleaf => exact hleaf.eq_variable ▸ .var name
  | math op left right ihl ihr =>
    obtain ⟨hlcalls, hrcalls⟩ := callsInstances_append.1 hcalls
    obtain ⟨l, r, hl, hr, rfl⟩ := Term.binaryOf_eq_ok.1 hterm
    obtain ⟨hltype, hrtype, rfl⟩ := htype.of_builtin op.builtinType?_symbol
    exact .math (ihl hlcalls hl hltype) (ihr hrcalls hr hrtype)
  | compare op left right ihl ihr =>
    obtain ⟨hlcalls, hrcalls⟩ := callsInstances_append.1 hcalls
    obtain ⟨l, r, hl, hr, rfl⟩ := Term.binaryOf_eq_ok.1 hterm
    obtain ⟨hltype, hrtype, rfl⟩ := htype.of_builtin op.builtinType?_symbol
    exact .compare (ihl hlcalls hl hltype) (ihr hrcalls hr hrtype)
  | logic op left right ihl ihr =>
    obtain ⟨hlcalls, hrcalls⟩ := callsInstances_append.1 hcalls
    obtain ⟨l, r, hl, hr, rfl⟩ := Term.binaryOf_eq_ok.1 hterm
    obtain ⟨hltype, hrtype, rfl⟩ := htype.of_builtin op.builtinType?_symbol
    exact .logic (ihl hlcalls hl hltype) (ihr hrcalls hr hrtype)
  | not operand ih =>
    obtain ⟨inner, hinner, rfl⟩ := toTerm_not_eq_ok.1 hterm
    cases htype with
    | app hoperator hoperand =>
      cases hoperator with
      | var hleaf =>
        have heq := hleaf.eq_builtin (show _ = some (.arrow .bool .bool) from rfl)
        simp only [Ty.arrow.injEq] at heq
        obtain ⟨rfl, rfl⟩ := heq
        exact .not (ih hcalls hinner hoperand)
  | call name args ih =>
    obtain ⟨hdefined, terms, hterms, rfl⟩ := toTerm_call_eq_ok.1 hterm
    obtain ⟨types, hfunction, harguments⟩ := htype.of_foldl_app
    cases hfunction with
    | var hleaf =>
      obtain ⟨general, hgeneral, hinstance⟩ :=
        hcalls name List.mem_cons_self hdefined _ hleaf
      have hargs := hcalls.mono fun _ => List.mem_cons_of_mem _
      exact .call hgeneral hinstance (argsHaveTypes_of_toTerm ih hargs hterms harguments)

/-- A statement whose term has a type follows the rules, and its type is that of statements. -/
theorem Stmt.isTyped_of_toTerm {scope : String} {stmt : Stmt} {term : Term}
    (hcalls : CallsInstances program signature? varTypes general? stmt.callees)
    (hterm : stmt.toTerm program scope = .ok term)
    (htype : term.HasType signature? varTypes type) :
    stmt.IsTyped general? (fun name => varTypes (.ofFunction name scope)) ∧ type = .unit := by
  induction stmt generalizing term type with
  | assign name value =>
    obtain ⟨l, r, hl, hr, rfl⟩ := Term.binaryOf_eq_ok.1 hterm
    cases hl
    obtain ⟨domain, domain', hoperator, hleft, hright⟩ := htype.of_binary
    obtain ⟨parameter, heq⟩ := hoperator.eq_scheme rfl rfl
    simp only [Ty.arrow.injEq] at heq
    obtain ⟨rfl, rfl, rfl⟩ := heq
    cases hleft with
    | var hleaf =>
      obtain rfl := hleaf.eq_variable
      exact ⟨.assign (Expr.hasType_of_toTerm hcalls hr hright), rfl⟩
  | seq first second ihf ihs =>
    obtain ⟨hfcalls, hscalls⟩ := callsInstances_append.1 hcalls
    obtain ⟨l, r, hl, hr, rfl⟩ := Term.binaryOf_eq_ok.1 hterm
    obtain ⟨hleft, hright⟩ := Term.hasType_chain.1 htype
    obtain ⟨hsecond, hunit⟩ := ihs hscalls hr hright
    exact ⟨.seq (ihf hfcalls hl hleft).1 hsecond, hunit⟩
  | ifThen condition body ih =>
    obtain ⟨hccalls, hbcalls⟩ := callsInstances_append.1 hcalls
    obtain ⟨l, r, hl, hr, rfl⟩ := Term.binaryOf_eq_ok.1 hterm
    obtain ⟨hcondition, hbody, rfl⟩ := htype.of_builtin rfl
    exact ⟨.ifThen (Expr.hasType_of_toTerm hccalls hl hcondition) (ih hbcalls hr hbody).1, rfl⟩
  | ifElse condition body alternative ihb iha =>
    obtain ⟨hccalls, hrest⟩ := callsInstances_append.1 hcalls
    obtain ⟨hbcalls, hacalls⟩ := callsInstances_append.1 hrest
    obtain ⟨c, b, a, hc, hb, ha, rfl⟩ := toTerm_ifElse_eq_ok.1 hterm
    cases htype with
    | app hchosen halternative =>
      obtain ⟨domain, domain', hoperator, hcondition, hbody⟩ := hchosen.of_binary
      have heq := hoperator.eq_builtin rfl
      simp only [Ty.arrow.injEq] at heq
      obtain ⟨rfl, rfl, rfl, rfl⟩ := heq
      exact ⟨.ifElse (Expr.hasType_of_toTerm hccalls hc hcondition) (ihb hbcalls hb hbody).1
        (iha hacalls ha halternative).1, rfl⟩
  | loop condition body ih =>
    obtain ⟨hccalls, hbcalls⟩ := callsInstances_append.1 hcalls
    obtain ⟨l, r, hl, hr, rfl⟩ := Term.binaryOf_eq_ok.1 hterm
    obtain ⟨hcondition, hbody, rfl⟩ := htype.of_builtin rfl
    exact ⟨.loop (Expr.hasType_of_toTerm hccalls hl hcondition) (ih hbcalls hr hbody).1, rfl⟩

namespace FunctionDef

/-- The type of an abstraction over parameters takes them one after the other. -/
theorem abstract_hasType {function : FunctionDef} {body : Term}
    (h : (function.abstract body).HasType signature? varTypes type) :
    ∃ result, body.HasType signature? varTypes result
      ∧ type = .arrows (function.params.map fun param =>
          varTypes (.ofFunction param function.name)) result := by
  unfold abstract at h
  generalize function.params = params at h
  induction params generalizing type with
  | nil => exact ⟨type, h, rfl⟩
  | cons param params ih =>
    cases h with
    | abs hbody =>
      obtain ⟨result, hresult, rfl⟩ := ih hbody
      exact ⟨result, hresult, rfl⟩

theorem returns_of_toTerm {function : FunctionDef} {term : Term}
    (hcalls : CallsInstances program signature? varTypes general? function.callees)
    (hterm : function.toTerm program = .ok term)
    (htype : term.HasType signature? varTypes type) :
    ∃ result,
      type = .arrows (function.params.map fun param =>
          varTypes (.ofFunction param function.name)) result
        ∧ function.Returns general? (fun name => varTypes (.ofFunction name function.name))
            result := by
  obtain ⟨resultTerm, inner, hresult, hinner, rfl⟩ := toTerm_eq_ok.1 hterm
  obtain ⟨result, hbodyType, rfl⟩ := abstract_hasType htype
  obtain ⟨hbcalls, hrcalls⟩ := callsInstances_append.1 hcalls
  have hreturn {type : Ty} (h : (Term.app (.global "return") resultTerm).HasType signature?
      varTypes type) :
      function.result.HasType general? (fun name => varTypes (.ofFunction name function.name))
        type := by
    cases h with
    | app hoperator hoperand =>
      cases hoperator with
      | var hleaf =>
        obtain ⟨parameter, heq⟩ := hleaf.eq_scheme rfl rfl
        simp only [Ty.arrow.injEq] at heq
        obtain ⟨rfl, rfl⟩ := heq
        exact Expr.hasType_of_toTerm hrcalls hresult hoperand
  refine ⟨result, rfl, ?_⟩
  cases hbody : function.body with
  | none =>
    rw [hbody] at hinner
    cases hinner
    exact ⟨by simp [hbody], hreturn hbodyType⟩
  | some body =>
    rw [hbody] at hinner hbcalls
    obtain ⟨first, hfirst, rfl⟩ := hinner
    obtain ⟨hleft, hright⟩ := Term.hasType_chain.1 hbodyType
    refine ⟨fun other hother => ?_, hreturn hright⟩
    rw [hbody, Option.mem_some_iff] at hother
    subst hother
    exact (Stmt.isTyped_of_toTerm hbcalls hfirst hleft).1

end FunctionDef

end

end WhileLang

import WhileLang.Proofs.Ty.MostGeneral
import WhileLang.Proofs.Typing.Rules
import WhileLang.Term.Inference

/-!
# Typing of terms

Types of terms without definitions, told without equations, and what the walk over such a term
collects: equations whose solutions are exactly typings, and a row for every part.

Main definitions:

- Relations {lit}`TermVar.HasType` and {lit}`Term.HasType`.
- Predicate {lit}`Term.BelongsTo`: a term without definitions, all local variables of which are
  those of one function.
- Structure {lit}`TypeEnv.Grows`: what was collected in between.

Main results:

- Theorem {lit}`Term.infer_spec`: a walk ends with a type, and a solution of the equations it
  demands types every part of the term.
-/

namespace WhileLang

/-! ## Types of terms -/

section

variable (signature? : String → Option Ty) (varTypes : TermVar → Ty)

/-- The types of a name: that of its variable, that of an operator, or an instance. -/
def TermVar.HasType (var : TermVar) (type : Ty) : Prop :=
  match var.scope with
  | some _ => type = varTypes var
  | none =>
    match builtinType? var.name with
    | some builtin => type = builtin
    | none =>
      match schemeType? var.name with
      | some scheme => ∃ parameter, type = scheme parameter
      | none =>
        match signature? var.name with
        | some general => type.IsInstance general
        | none => type = varTypes var

/-- A term without definitions has a type. -/
inductive Term.HasType : Term → Ty → Prop where
  | var {leaf : TermVar} {type : Ty} (h : leaf.HasType signature? varTypes type) :
      HasType (.var leaf) type
  | literal (value : Value) : HasType (.literal value) (.con value.kind)
  | app {function argument : Term} {domain codomain : Ty}
      (hfunction : HasType function (.arrow domain codomain)) (hargument : HasType argument domain) :
      HasType (.app function argument) codomain
  | abs {param : TermVar} {body : Term} {codomain : Ty} (hbody : HasType body codomain) :
      HasType (.abs param body) (.arrow (varTypes param) codomain)

end

/-- Whether a term is an application or an abstraction. -/
def Term.isCompound : Term → Bool
  | .app .. => true
  | .abs .. => true
  | _ => false

/--
A term is made of the variables of a function, of names that cannot be taken for variables of a
function, and of literals, and it abstracts over applications and abstractions only.
-/
def Term.BelongsTo (scope : String) : Term → Prop
  | .var leaf => leaf.scope = some scope ∨ leaf.scope = none ∧ ¬ [':', ':'] <:+: leaf.name.toList
  | .literal _ => True
  | .app function argument => function.BelongsTo scope ∧ argument.BelongsTo scope
  | .abs param body =>
    param.scope = some scope ∧ body.BelongsTo scope ∧ body.isCompound = true
  | .letIn .. => False

/-! ## Growing environments -/

namespace TypeEnv

/-- Equations and rows were added, and variables got types, but no function was solved. -/
structure Grows (before after : TypeEnv) (constraints : List Constraint) (rows : List Subterm) :
    Prop where
  constraints : after.constraints.toList = before.constraints.toList ++ constraints
  subterms : after.subterms.toList = before.subterms.toList ++ rows
  signatures : after.signatures = before.signatures
  varTypes {var : TermVar} {type : Ty} :
    before.varTypes.lookup var = some type → after.varTypes.lookup var = some type

/-- The types of variables are those that an assignment makes of their types so far. -/
def Agrees (env : TypeEnv) (assignment : String → Ty) (varTypes : TermVar → Ty) : Prop :=
  ∀ (var : TermVar) (type : Ty),
    env.varTypes.lookup var = some type → varTypes var = type.replace assignment

variable {env before middle after : TypeEnv} {constraints constraints' : List Constraint}
  {rows rows' : List Subterm}

theorem Grows.trans (h : before.Grows middle constraints rows)
    (h' : middle.Grows after constraints' rows') :
    before.Grows after (constraints ++ constraints') (rows ++ rows') where
  constraints := by rw [h'.constraints, h.constraints, List.append_assoc]
  subterms := by rw [h'.subterms, h.subterms, List.append_assoc]
  signatures := h'.signatures.trans h.signatures
  varTypes hlookup := h'.varTypes (h.varTypes hlookup)

theorem Grows.agrees (h : before.Grows after constraints rows) {assignment : String → Ty}
    {varTypes : TermVar → Ty} (hagrees : after.Agrees assignment varTypes) :
    before.Agrees assignment varTypes :=
  fun _ _ hlookup => hagrees _ _ (h.varTypes hlookup)

theorem Grows.signature? (h : before.Grows after constraints rows) :
    after.signature? = before.signature? := by
  funext name
  unfold TypeEnv.signature?
  rw [h.signatures]

/-- New numbers do not count as anything collected. -/
theorem grows_of_numbers (env : TypeEnv) (nextVar nextNode : Nat) :
    env.Grows { env with nextVar, nextNode } [] [] where
  constraints := (List.append_nil _).symm
  subterms := (List.append_nil _).symm
  signatures := rfl
  varTypes := id

theorem grows_constrain (env : TypeEnv) (left right : Ty) :
    env.Grows (env.constrain left right) [(left, right)] [] where
  constraints := by simp [constrain]
  subterms := (List.append_nil _).symm
  signatures := rfl
  varTypes := id

theorem grows_record (env : TypeEnv) (node : Nat) (term : Term) (type : Ty) (first : Nat) :
    env.Grows (env.record node term type first) [] [⟨node, term, type, first⟩] where
  constraints := (List.append_nil _).symm
  subterms := by simp [record]
  signatures := rfl
  varTypes := id

theorem grows_variableType (env : TypeEnv) (var : TermVar) :
    env.Grows (env.variableType var).2 [] []
      ∧ (env.variableType var).2.varTypes.lookup var = some (env.variableType var).1 := by
  unfold variableType
  split
  · rename_i type hlookup
    exact ⟨env.grows_of_numbers _ _, hlookup⟩
  · rename_i hlookup
    refine ⟨⟨(List.append_nil _).symm, (List.append_nil _).symm, rfl, fun {other} type h => ?_⟩, ?_⟩
    · rw [fresh, List.lookup_append]
      simp [h]
    · simp [fresh, List.lookup_append, hlookup]

/-- An instance is a replacement of the variables of a type. -/
theorem instantiate_spec (env : TypeEnv) (type : Ty) :
    env.Grows (env.instantiate type).2 [] [] ∧ (env.instantiate type).1.IsInstance type := by
  have hnumbers (names : List String) (env : TypeEnv) :
      ∃ nextVar, (env.renameFresh names).2 = { env with nextVar } := by
    induction names generalizing env with
    | nil => exact ⟨env.nextVar, rfl⟩
    | cons name names ih =>
      obtain ⟨nextVar, h⟩ := ih env.fresh.2
      exact ⟨nextVar, h⟩
  obtain ⟨nextVar, h⟩ := hnumbers type.vars env
  refine ⟨?_, _, Subst.apply_eq_replace _ _⟩
  have hgrows := env.grows_of_numbers nextVar env.nextNode
  rw [← h] at hgrows
  exact hgrows

/-! ## Names -/

/-- The types of operators have no variables. -/
theorem replace_builtinType? {name : String} {type : Ty} (h : builtinType? name = some type)
    (f : String → Ty) : type.replace f = type := by
  unfold builtinType? at h
  split at h
  all_goals cases h
  all_goals rfl

theorem replace_schemeType? {name : String} {scheme : Ty → Ty} (h : schemeType? name = some scheme)
    (f : String → Ty) (type : Ty) : (scheme type).replace f = scheme (type.replace f) := by
  unfold schemeType? at h
  split at h
  all_goals cases h
  all_goals rfl

/-- A name has the type that is looked up for it, whatever assignment gives it. -/
theorem leaf_spec (env : TypeEnv) (var : TermVar) :
    env.Grows (env.leaf var).2 [] [] ∧
      ∀ {assignment : String → Ty} {varTypes : TermVar → Ty},
        (env.leaf var).2.Agrees assignment varTypes →
          var.HasType env.signature? varTypes ((env.leaf var).1.replace assignment) := by
  obtain ⟨hgrows, hlookup⟩ := env.grows_variableType var
  unfold leaf TermVar.HasType
  cases var.scope with
  | some scope => exact ⟨hgrows, fun hagrees => (hagrees _ _ hlookup).symm⟩
  | none =>
    cases hbuiltin : builtinType? var.name with
    | some type =>
      exact ⟨env.grows_of_numbers _ _, fun _ => replace_builtinType? hbuiltin _⟩
    | none =>
      unfold globalLeaf
      cases hscheme : schemeType? var.name with
      | some scheme =>
        exact ⟨env.grows_of_numbers _ _, fun _ => ⟨_, replace_schemeType? hscheme _ _⟩⟩
      | none =>
        cases hsignature : env.signature? var.name with
        | some general =>
          obtain ⟨hgrows, hinstance⟩ := env.instantiate_spec general
          exact ⟨hgrows, fun _ => hinstance.replace _⟩
        | none => exact ⟨hgrows, fun hagrees => (hagrees _ _ hlookup).symm⟩

/-- The row of a parameter is that of a variable. -/
theorem recordParam_spec (env : TypeEnv) (param : TermVar) :
    ∃ row, env.Grows (env.recordParam param).2 [] [row] ∧ row.term = .var param
      ∧ row.type = (env.recordParam param).1
      ∧ (env.recordParam param).2.varTypes.lookup param = some row.type := by
  obtain ⟨hgrows, hlookup⟩ := env.grows_variableType param
  have hnode := (env.variableType param).2.grows_of_numbers (env.variableType param).2.nextVar
    ((env.variableType param).2.nextNode + 1)
  exact ⟨_, (hgrows.trans hnode).trans (grows_record _ _ _ _ _), rfl, rfl, hlookup⟩

end TypeEnv

/-! ## The walk -/

namespace Inference

/-- The type variable of a node that is entered. -/
def nodeType (before : Inference) : Ty :=
  .var (TypeEnv.freshName before.env.nextVar)

/-- The inference within a node. -/
def within (before : Inference) : Inference :=
  { before with env := before.env.newNode.2.fresh.2 }

/-- The inference within an abstraction, after its parameter. -/
def withParam (before : Inference) (param : TermVar) : Inference :=
  { before with env := (before.within.env.recordParam param).2 }

/-- The row of a node that is left. -/
def row (before : Inference) (term : Term) : Subterm :=
  ⟨before.env.nextNode, term, before.nodeType, before.env.subterms.size⟩

/-- The inference after a node, from the one within it. -/
def close (before : Inference) (term : Term) (inside : Inference) : Inference :=
  inside.withEnv (·.record before.env.nextNode term before.nodeType before.env.subterms.size)

/-- A node that is left has its row behind all that were there before. -/
theorem subterms_close (before inside : Inference) (term : Term) :
    (before.close term inside).env.subterms.toList
      = inside.env.subterms.toList ++ [before.row term] :=
  Array.toList_push

theorem grows_within (before : Inference) : before.env.Grows before.within.env [] [] :=
  before.env.grows_of_numbers _ _

end Inference

/-- What a walk over a term without definitions has collected. -/
structure Walked (scope : String) (term : Term) (before after : Inference)
    (constraints : List Constraint) (rows : List Subterm) : Prop where
  grows : before.env.Grows after.env constraints rows
  reports : after.reports = before.reports
  last : rows.getLast? = some (before.row term)
  belongs : ∀ row ∈ rows, row.term.BelongsTo scope
  typed {assignment : String → Ty} {varTypes : TermVar → Ty} :
    Solves assignment constraints → after.env.Agrees assignment varTypes →
      ∀ row ∈ rows, row.term.HasType before.env.signature? varTypes (row.type.replace assignment)

namespace Walked

variable {scope : String} {term : Term} {constraints : List Constraint} {rows : List Subterm}

/-- The whole term is typed with its parts. -/
theorem typed_self {before after : Inference} (h : Walked scope term before after constraints rows)
    {assignment : String → Ty} {varTypes : TermVar → Ty} (hsolves : Solves assignment constraints)
    (hagrees : after.env.Agrees assignment varTypes) :
    term.HasType before.env.signature? varTypes (before.nodeType.replace assignment) :=
  h.typed hsolves hagrees _ (List.mem_of_getLast? h.last)

/-- A node is left with a row of its own, after those of its parts. -/
theorem close (before inside : Inference)
    (hgrows : before.within.env.Grows inside.env constraints rows)
    (hreports : inside.reports = before.reports) (hterm : term.BelongsTo scope)
    (hbelongs : ∀ row ∈ rows, row.term.BelongsTo scope)
    (htyped : ∀ {assignment : String → Ty} {varTypes : TermVar → Ty},
      Solves assignment constraints → inside.env.Agrees assignment varTypes →
        (∀ row ∈ rows, row.term.HasType before.env.signature? varTypes
            (row.type.replace assignment))
          ∧ term.HasType before.env.signature? varTypes (before.nodeType.replace assignment)) :
    Walked scope term before (before.close term inside) constraints
      (rows ++ [before.row term]) := by
  have hrecord := inside.env.grows_record before.env.nextNode term before.nodeType
    before.env.subterms.size
  refine ⟨?_, hreports, List.getLast?_concat, ?_, ?_⟩
  · have hall := (before.grows_within.trans hgrows).trans hrecord
    simp only [List.nil_append, List.append_nil] at hall
    exact hall
  · intro row hrow
    rcases List.mem_append.1 hrow with hrow | hrow
    · exact hbelongs row hrow
    · obtain rfl := List.mem_singleton.1 hrow
      exact hterm
  · intro assignment varTypes hsolves hagrees row hrow
    obtain ⟨hrows, hself⟩ := htyped hsolves (hrecord.agrees hagrees)
    rcases List.mem_append.1 hrow with hrow | hrow
    · exact hrows row hrow
    · obtain rfl := List.mem_singleton.1 hrow
      exact hself

end Walked

theorem Term.infer_app {function argument : Term} {before middle inside : Inference}
    {functionType argumentType : Ty}
    (hfunction : function.infer before.within = (.ok functionType, middle))
    (hargument : argument.infer middle = (.ok argumentType, inside)) :
    (app function argument).infer before = (.ok before.nodeType,
      before.close (app function argument)
        (inside.withEnv (·.constrain functionType (.arrow argumentType before.nodeType)))) := by
  simp only [Inference.within, TypeEnv.newNode, TypeEnv.fresh] at hfunction
  simp only [infer, TypeEnv.newNode, TypeEnv.fresh, hfunction, hargument]
  rfl

theorem Term.infer_abs {param : TermVar} {body : Term} {before inside : Inference} {bodyType : Ty}
    (hbody : body.infer (before.withParam param) = (.ok bodyType, inside)) :
    (abs param body).infer before = (.ok before.nodeType,
      before.close (abs param body) (inside.withEnv (·.constrain before.nodeType
        (.arrow (before.within.env.recordParam param).1 bodyType)))) := by
  simp only [Inference.withParam, Inference.within, TypeEnv.newNode, TypeEnv.fresh] at hbody
  simp only [infer, TypeEnv.newNode, TypeEnv.fresh, hbody]
  rfl

/-- A walk over a term without definitions ends with a type, and types every part of the term. -/
theorem Term.infer_spec {scope : String} {term : Term} (h : term.BelongsTo scope)
    (before : Inference) :
    ∃ after constraints rows, term.infer before = (.ok before.nodeType, after)
      ∧ Walked scope term before after constraints rows := by
  induction term generalizing before with
  | var leaf =>
    obtain ⟨hgrows, htyped⟩ := before.within.env.leaf_spec leaf
    have hconstrain := (before.within.env.leaf leaf).2.grows_constrain before.nodeType
      (before.within.env.leaf leaf).1
    refine ⟨_, _, _, rfl, Walked.close before ⟨_, before.reports⟩ (hgrows.trans hconstrain) rfl h
      (by simp) ?_⟩
    intro assignment varTypes hsolves hagrees
    refine ⟨by simp, .var ?_⟩
    rw [(solves_cons.1 hsolves).1]
    exact htyped (hconstrain.agrees hagrees)
  | literal value =>
    have hconstrain := before.within.env.grows_constrain before.nodeType (.con value.kind)
    refine ⟨_, _, _, rfl, Walked.close before ⟨_, before.reports⟩ hconstrain rfl h (by simp) ?_⟩
    intro assignment varTypes hsolves hagrees
    refine ⟨by simp, ?_⟩
    rw [(solves_cons.1 hsolves).1]
    exact .literal value
  | app function argument ihf iha =>
    obtain ⟨middle, fconstraints, frows, hf, hfwalked⟩ := ihf h.1 before.within
    obtain ⟨inside, aconstraints, arows, ha, hawalked⟩ := iha h.2 middle
    have hconstrain := inside.env.grows_constrain before.within.nodeType
      (.arrow middle.nodeType before.nodeType)
    refine ⟨_, _, _, infer_app hf ha, Walked.close before _
      ((hfwalked.grows.trans hawalked.grows).trans hconstrain) ?_ h ?_ ?_⟩
    · exact hawalked.reports.trans hfwalked.reports
    · intro row hrow
      simp only [List.append_nil] at hrow
      rcases List.mem_append.1 hrow with hrow | hrow
      · exact hfwalked.belongs row hrow
      · exact hawalked.belongs row hrow
    · intro assignment varTypes hsolves hagrees
      obtain ⟨hparts, hnode⟩ := solves_append.1 hsolves
      obtain ⟨hfsolves, hasolves⟩ := solves_append.1 hparts
      have haagrees := hconstrain.agrees hagrees
      have hfagrees := hawalked.grows.agrees haagrees
      have hsame : middle.env.signature? = before.env.signature? := hfwalked.grows.signature?
      constructor
      · intro row hrow
        simp only [List.append_nil] at hrow
        rcases List.mem_append.1 hrow with hrow | hrow
        · exact hfwalked.typed hfsolves hfagrees row hrow
        · exact hsame ▸ hawalked.typed hasolves haagrees row hrow
      · have hftype := hfwalked.typed_self hfsolves hfagrees
        have hatype := hawalked.typed_self hasolves haagrees
        rw [(solves_cons.1 hnode).1] at hftype
        rw [hsame] at hatype
        exact .app hftype hatype
  | abs param body ih =>
    obtain ⟨row, hgrows, hterm, htype, hlookup⟩ := before.within.env.recordParam_spec param
    obtain ⟨inside, constraints, rows, hb, hwalked⟩ := ih h.2.1 (before.withParam param)
    have hconstrain := inside.env.grows_constrain before.nodeType
      (.arrow row.type (before.withParam param).nodeType)
    have hinfer := infer_abs hb
    rw [← htype] at hinfer
    have hsame : (before.withParam param).env.signature? = before.env.signature? :=
      hgrows.signature?
    refine ⟨_, _, _, hinfer, Walked.close before _
      ((hgrows.trans hwalked.grows).trans hconstrain) hwalked.reports h ?_ ?_⟩
    · intro row' hrow
      simp only [List.append_nil, List.singleton_append, List.mem_cons] at hrow
      rcases hrow with rfl | hrow
      · exact hterm ▸ Or.inl h.1
      · exact hwalked.belongs row' hrow
    · intro assignment varTypes hsolves hagrees
      obtain ⟨hparts, hnode⟩ := solves_append.1 hsolves
      have hbagrees := hconstrain.agrees hagrees
      have hvar : varTypes param = row.type.replace assignment :=
        hwalked.grows.agrees hbagrees _ _ hlookup
      constructor
      · intro row' hrow
        simp only [List.append_nil, List.singleton_append, List.mem_cons] at hrow
        rcases hrow with rfl | hrow
        · rw [hterm, ← hvar]
          refine .var ?_
          unfold TermVar.HasType
          rw [h.1]
        · exact hsame ▸ hwalked.typed hparts hbagrees row' hrow
      · have hbtype := hwalked.typed_self hparts hbagrees
        rw [(solves_cons.1 hnode).1, Ty.replace, ← hvar]
        exact .abs (hsame ▸ hbtype)
  | letIn => exact h.elim

end WhileLang

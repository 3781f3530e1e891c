import WhileLang.Proofs.Term.Leaves
import WhileLang.Proofs.Ty.Locality

/-!
# Type variables of one definition

The walk over the term of a function demands equations over type variables that are new since the
definition began, if every function that is called has been solved.  Variables of other functions
do not come in: each function has local variables and a name of its own, and a function that was
solved before has its type with new variables at each use.

Main definitions:

- Predicates {lit}`Numbered` and {lit}`Ty.Between`: type variables with numbers in an interval.
- Structures {lit}`TypeEnv.Hosts` and {lit}`Collects`: what the walk over a definition may collect.

Main results:

- Theorem {lit}`Term.infer_collects`: all that the walk collects is over its own type variables.
-/

namespace WhileLang

open TypeEnv (freshName freshName_injective)

/-! ## Intervals of type variables -/

/-- A type variable has a number in an interval. -/
def Numbered (low high : Nat) (name : String) : Prop :=
  ∃ number, low ≤ number ∧ number < high ∧ name = freshName number

theorem numbered_freshName {low high number : Nat} :
    Numbered low high (freshName number) ↔ low ≤ number ∧ number < high := by
  constructor
  · rintro ⟨other, hlow, hhigh, hname⟩
    rw [freshName_injective hname]
    exact ⟨hlow, hhigh⟩
  · rintro ⟨hlow, hhigh⟩
    exact ⟨number, hlow, hhigh, rfl⟩

theorem Numbered.mono {low high lower higher : Nat} {name : String} (h : Numbered low high name)
    (hlow : lower ≤ low) (hhigh : high ≤ higher) : Numbered lower higher name := by
  obtain ⟨number, hle, hlt, hname⟩ := h
  exact ⟨number, hlow.trans hle, hlt.trans_le hhigh, hname⟩

/-- Intervals one behind the other have no variable in common. -/
theorem Numbered.not_numbered {low middle middle' high : Nat} {name : String}
    (h : Numbered low middle name) (hle : middle ≤ middle') : ¬ Numbered middle' high name := by
  obtain ⟨number, -, hlt, rfl⟩ := h
  rw [numbered_freshName]
  omega

/-- All variables of a type have numbers in an interval. -/
def Ty.Between (low high : Nat) (type : Ty) : Prop :=
  ∀ name ∈ type.occurrences, Numbered low high name

namespace Ty.Between

variable {low high higher : Nat} {type : Ty}

theorem mono (h : type.Between low high) (hle : high ≤ higher) : type.Between low higher :=
  fun name hmem => (h name hmem).mono (Nat.le_refl _) hle

theorem fresh {number : Nat} (hlow : low ≤ number) (hhigh : number < high) :
    (Ty.var (freshName number)).Between low high := by
  intro name hmem
  obtain rfl := List.mem_singleton.1 hmem
  exact numbered_freshName.2 ⟨hlow, hhigh⟩

theorem arrow {domain codomain : Ty} (hdomain : domain.Between low high)
    (hcodomain : codomain.Between low high) : (Ty.arrow domain codomain).Between low high :=
  List.forall_mem_append.2 ⟨hdomain, hcodomain⟩

theorem of_occurrences_eq_nil (h : type.occurrences = []) : type.Between low high := by
  intro name hmem
  simp [h] at hmem

end Ty.Between

/-! ## What a definition may collect -/

/-- A variable belongs to a function: it is one of its variables, or its name. -/
def TermVar.IsOwnedBy (owner : String) (var : TermVar) : Prop :=
  var.scope = some owner ∨ var = .global owner

/-- The variables of a function have got types since a number only. -/
structure TypeEnv.Hosts (owner : String) (low : Nat) (env : TypeEnv) : Prop where
  low_le : low ≤ env.nextVar
  own {var : TermVar} {type : Ty} : var.IsOwnedBy owner → env.varTypes.lookup var = some type →
    type.Between low env.nextVar

/-- Equations and rows over type variables since a number, and types for variables of a function. -/
structure Collects (owner : String) (low : Nat) (before after : TypeEnv)
    (constraints : List Constraint) (rows : List Subterm) : Prop where
  grows : before.Grows after constraints rows
  nextVar_le : before.nextVar ≤ after.nextVar
  constraints : Within (Numbered low after.nextVar) constraints
  rows : ∀ row ∈ rows, row.type.Between low after.nextVar
  hosts : after.Hosts owner low
  others {var : TermVar} : ¬ var.IsOwnedBy owner →
    after.varTypes.lookup var = before.varTypes.lookup var

namespace Collects

variable {owner : String} {low : Nat} {env before middle after : TypeEnv}
  {constraints constraints' : List Constraint} {rows rows' : List Subterm}

theorem trans (h : Collects owner low before middle constraints rows)
    (h' : Collects owner low middle after constraints' rows') :
    Collects owner low before after (constraints ++ constraints') (rows ++ rows') where
  grows := h.grows.trans h'.grows
  nextVar_le := h.nextVar_le.trans h'.nextVar_le
  constraints := within_append.2
    ⟨h.constraints.mono fun _ hx => hx.mono (Nat.le_refl _) h'.nextVar_le, h'.constraints⟩
  rows := List.forall_mem_append.2
    ⟨fun row hrow => (h.rows row hrow).mono h'.nextVar_le, h'.rows⟩
  hosts := h'.hosts
  others hvar := (h'.others hvar).trans (h.others hvar)

/-- More numbers are in use. -/
theorem numbers (h : env.Hosts owner low) {nextVar : Nat} (hle : env.nextVar ≤ nextVar)
    (nextNode : Nat) : Collects owner low env { env with nextVar, nextNode } [] [] where
  grows := env.grows_of_numbers nextVar nextNode
  nextVar_le := hle
  constraints := by simp [Within, Unify.constraintVars]
  rows := nofun
  hosts := ⟨h.low_le.trans hle, fun hvar hlookup => (h.own hvar hlookup).mono hle⟩
  others _ := rfl

theorem constrain (h : env.Hosts owner low) {left right : Ty}
    (hleft : left.Between low env.nextVar) (hright : right.Between low env.nextVar) :
    Collects owner low env (env.constrain left right) [(left, right)] [] where
  grows := env.grows_constrain left right
  nextVar_le := Nat.le_refl _
  constraints := within_singleton.2 ⟨hleft, hright⟩
  rows := nofun
  hosts := ⟨h.low_le, h.own⟩
  others _ := rfl

theorem record (h : env.Hosts owner low) (node : Nat) (term : Term) {type : Ty}
    (htype : type.Between low env.nextVar) (first : Nat) :
    Collects owner low env (env.record node term type first) [] [⟨node, term, type, first⟩] where
  grows := env.grows_record node term type first
  nextVar_le := Nat.le_refl _
  constraints := by simp [Within, Unify.constraintVars]
  rows row hrow := by
    rw [List.mem_singleton.1 hrow]
    exact htype
  hosts := ⟨h.low_le, h.own⟩
  others _ := rfl

/-! ### Names -/

/-- A variable of the function has a type since the number, whether it is met first or again. -/
theorem variableType (h : env.Hosts owner low) {var : TermVar} (hvar : var.IsOwnedBy owner) :
    Collects owner low env (env.variableType var).2 [] []
      ∧ (env.variableType var).1.Between low (env.variableType var).2.nextVar := by
  obtain ⟨hgrows, -⟩ := env.grows_variableType var
  unfold TypeEnv.variableType at hgrows ⊢
  cases hlookup : env.varTypes.lookup var with
  | some type => exact ⟨numbers h (Nat.le_refl _) _, h.own hvar hlookup⟩
  | none =>
    rw [hlookup] at hgrows
    have hfresh := numbers h (Nat.le_succ env.nextVar) env.nextNode
    have hnew : (Ty.var (freshName env.nextVar)).Between low (env.nextVar + 1) :=
      .fresh h.low_le (Nat.lt_succ_self _)
    refine ⟨⟨hgrows, hfresh.nextVar_le, hfresh.constraints, hfresh.rows,
      ⟨hfresh.hosts.low_le, fun {other type} hother hsome => ?_⟩, fun {other} hother => ?_⟩, hnew⟩
    · rcases TypeEnv.lookup_concat hsome with hold | ⟨-, rfl⟩
      · exact hfresh.hosts.own hother hold
      · exact hnew
    · have hne : other ≠ var := fun heq => hother (heq ▸ hvar)
      simp [TypeEnv.fresh, List.lookup_append, List.lookup_cons, beq_eq_false_iff_ne.2 hne]

/-- Renaming brings in new type variables only. -/
theorem renameFresh_between (env : TypeEnv) (names : List String) :
    ∀ name ∈ names, ((env.renameFresh names).1.apply (.var name)).Between env.nextVar
      (env.renameFresh names).2.nextVar := by
  induction names generalizing env with
  | nil => nofun
  | cons first names ih =>
    have hnumbers := (TypeEnv.renameFresh_spec env (first :: names)).after_eq
    have hafter : (env.renameFresh (first :: names)).2 = (env.fresh.2.renameFresh names).2 := rfl
    intro name hmem
    by_cases heq : name = first
    · have happly : (env.renameFresh (first :: names)).1.apply (.var name)
          = .var (freshName env.nextVar) := by
        simp [TypeEnv.renameFresh, Subst.apply, Subst.get?, heq, TypeEnv.fresh]
      rw [happly, hnumbers]
      exact .fresh (Nat.le_refl _) (by simp)
    · have happly : (env.renameFresh (first :: names)).1.apply (.var name)
          = (env.fresh.2.renameFresh names).1.apply (.var name) := by
        simp [TypeEnv.renameFresh, Subst.apply, Subst.get?, List.lookup_cons,
          beq_eq_false_iff_ne.2 heq]
      rw [happly, hafter]
      have hrest := ih env.fresh.2 name ((List.mem_cons.1 hmem).resolve_left heq)
      exact fun other hother => (hrest other hother).mono (Nat.le_succ _) (Nat.le_refl _)

/-- An instance has new type variables only. -/
theorem instantiate (h : env.Hosts owner low) (general : Ty) :
    Collects owner low env (env.instantiate general).2 [] []
      ∧ (env.instantiate general).1.Between low (env.instantiate general).2.nextVar := by
  have hafter : (env.instantiate general).2
      = { env with nextVar := env.nextVar + general.vars.length } :=
    (TypeEnv.renameFresh_spec env general.vars).after_eq
  constructor
  · rw [hafter]
    exact numbers h (Nat.le_add_right _ _) _
  · intro name hmem
    have htype : (env.instantiate general).1
        = general.replace fun name => (env.renameFresh general.vars).1.apply (.var name) :=
      Subst.apply_eq_replace _ _
    rw [htype] at hmem
    obtain ⟨other, hother, hmem⟩ := Ty.mem_occurrences_replace.1 hmem
    have hnew := renameFresh_between env general.vars other (List.mem_eraseDups.2 hother) name hmem
    exact hnew.mono h.low_le (Nat.le_refl _)

/-- A name of the function, of an operator or of a function that is solved. -/
theorem leaf (h : env.Hosts owner low) {var : TermVar}
    (hvar : var.IsOwnedBy owner ∨ var.scope = none
      ∧ (isOperator var.name = true ∨ (env.signature? var.name).isSome = true)) :
    Collects owner low env (env.leaf var).2 [] []
      ∧ (env.leaf var).1.Between low (env.leaf var).2.nextVar := by
  unfold TypeEnv.leaf
  cases hscope : var.scope with
  | some scope =>
    rcases hvar with hvar | ⟨hnone, -⟩
    · exact variableType h hvar
    · rw [hscope] at hnone
      cases hnone
  | none =>
    cases hbuiltin : builtinType? var.name with
    | some type =>
      exact ⟨numbers h (Nat.le_refl _) _,
        .of_occurrences_eq_nil (TypeEnv.occurrences_builtinType? hbuiltin)⟩
    | none =>
      unfold TypeEnv.globalLeaf
      cases hscheme : schemeType? var.name with
      | some scheme =>
        refine ⟨numbers h (Nat.le_succ _) _, fun name hmem => ?_⟩
        have hnew : name = freshName env.nextVar := by
          unfold schemeType? at hscheme
          split at hscheme
          all_goals cases hscheme
          all_goals simpa [Ty.occurrences, TypeEnv.fresh, Ty.unit] using hmem
        rw [hnew, numbered_freshName]
        exact ⟨h.low_le, Nat.lt_succ_self _⟩
      | none =>
        cases hsignature : env.signature? var.name with
        | some general => exact instantiate h general
        | none =>
          refine variableType h (hvar.resolve_right ?_)
          simp [isOperator, hbuiltin, hscheme, hsignature]

/-- The row of a parameter, which is a variable of the function. -/
theorem recordParam (h : env.Hosts owner low) {param : TermVar} (hparam : param.IsOwnedBy owner) :
    ∃ row, Collects owner low env (env.recordParam param).2 [] [row]
      ∧ (env.recordParam param).1.Between low (env.recordParam param).2.nextVar := by
  obtain ⟨hcollects, htype⟩ := variableType h hparam
  have hnode := numbers hcollects.hosts (Nat.le_refl _) ((env.variableType param).2.nextNode + 1)
  exact ⟨_, (hcollects.trans hnode).trans (record hnode.hosts _ _ htype _), htype⟩

/-! ### Nodes -/

theorem within {before : Inference} (h : before.env.Hosts owner low) :
    Collects owner low before.env before.within.env [] [] :=
  numbers h (Nat.le_succ _) _

/-- A node is left with an equation and a row of its own, after those of its parts. -/
theorem close {start : Inference} {parts : TypeEnv} (term : Term) (inside : Inference)
    (h : Collects owner low start.within.env parts constraints rows)
    (hstart : start.env.Hosts owner low) {left right : Ty}
    (hleft : left.Between low parts.nextVar) (hright : right.Between low parts.nextVar)
    (hinside : inside.env = parts.constrain left right) :
    ∃ constraints rows,
      Collects owner low start.env (start.close term inside).env constraints rows
        ∧ start.env.nextVar < (start.close term inside).env.nextVar := by
  have hconstrain := constrain h.hosts hleft hright
  have hnode : start.nodeType.Between low (parts.constrain left right).nextVar :=
    .fresh hstart.low_le h.nextVar_le
  rw [← hinside] at hconstrain hnode
  have hrecord := record hconstrain.hosts start.env.nextNode term hnode start.env.subterms.size
  exact ⟨_, _, (((within hstart).trans h).trans hconstrain).trans hrecord,
    h.nextVar_le.trans (hconstrain.nextVar_le.trans hrecord.nextVar_le)⟩

end Collects

/-! ## The walk -/

/-- The walk over a term of a function collects nothing but what is its own. -/
theorem Term.infer_collects {owner : String} {low : Nat} {known : String → Option Ty} {term : Term}
    (h : term.Leaves fun leaf => leaf.IsOwnedBy owner ∨ leaf.scope = none
      ∧ (isOperator leaf.name = true ∨ (known leaf.name).isSome = true))
    {before : Inference} (hknown : before.env.signature? = known)
    (hhosts : before.env.Hosts owner low) :
    ∃ after constraints rows, term.infer before = (.ok before.nodeType, after)
      ∧ after.reports = before.reports
      ∧ Collects owner low before.env after.env constraints rows
      ∧ before.env.nextVar < after.env.nextVar := by
  have hwithin {before : Inference} (hhosts : before.env.Hosts owner low) :=
    (Collects.within hhosts).hosts
  have hnode {before : Inference} (hhosts : before.env.Hosts owner low) {nextVar : Nat}
      (hlt : before.env.nextVar < nextVar) : before.nodeType.Between low nextVar :=
    .fresh hhosts.low_le hlt
  induction term generalizing before with
  | var leaf =>
    obtain ⟨hleaf, htype⟩ := Collects.leaf (hwithin hhosts) (hknown ▸ h)
    obtain ⟨constraints, rows, hcollects, hlt⟩ := Collects.close (.var leaf)
      ⟨_, before.reports⟩ hleaf hhosts (hnode hhosts hleaf.nextVar_le) htype rfl
    exact ⟨_, constraints, rows, rfl, rfl, hcollects, hlt⟩
  | literal value =>
    have hkind : (Ty.con value.kind).Between low before.within.env.nextVar :=
      .of_occurrences_eq_nil rfl
    obtain ⟨constraints, rows, hcollects, hlt⟩ := Collects.close (.literal value)
      ⟨_, before.reports⟩ (Collects.numbers (hwithin hhosts) (Nat.le_refl _) _) hhosts
      (hnode hhosts (Nat.lt_succ_self _)) hkind rfl
    exact ⟨_, constraints, rows, rfl, rfl, hcollects, hlt⟩
  | app function argument ihf iha =>
    have hknownInside : before.within.env.signature? = known := hknown
    obtain ⟨middle, _, _, hf, hfreports, hfunction, hflt⟩ := ihf h.1 hknownInside (hwithin hhosts)
    obtain ⟨inside, _, _, ha, hareports, hargument, halt⟩ :=
      iha h.2 (hfunction.grows.signature?.trans hknown) hfunction.hosts
    have hparts := hfunction.trans hargument
    obtain ⟨constraints, rows, hcollects, hlt⟩ := Collects.close (.app function argument)
      (inside.withEnv (·.constrain _ _)) hparts hhosts
      (hnode (hwithin hhosts) (hflt.trans_le hargument.nextVar_le))
      (.arrow (hnode hfunction.hosts halt) (hnode hhosts hparts.nextVar_le)) rfl
    exact ⟨_, constraints, rows, infer_app hf ha, hareports.trans hfreports, hcollects, hlt⟩
  | abs param body ih =>
    obtain ⟨hscope, hparam, hbody⟩ := h
    have howned : param.IsOwnedBy owner := hparam.resolve_right fun hglobal => hscope hglobal.1
    obtain ⟨row, hrecord, hparamType⟩ := Collects.recordParam (hwithin hhosts) howned
    have hknownInside : (before.withParam param).env.signature? = known :=
      hrecord.grows.signature?.trans hknown
    obtain ⟨inside, _, _, hb, hreports, hcollected, hlt⟩ := ih hbody hknownInside hrecord.hosts
    have hparts := hrecord.trans hcollected
    obtain ⟨constraints, rows, hcollects, hlt'⟩ := Collects.close (.abs param body)
      (inside.withEnv (·.constrain _ _)) hparts hhosts (hnode hhosts hparts.nextVar_le)
      (.arrow (hparamType.mono hcollected.nextVar_le) (hnode hrecord.hosts hlt)) rfl
    exact ⟨_, constraints, rows, infer_abs hb, hreports, hcollects, hlt'⟩
  | letIn => exact h.elim

end WhileLang

import WhileLang.Proofs.Term.OwnVariables
import WhileLang.Proofs.Term.Parts
import WhileLang.Proofs.Term.PrintedForms

/-!
# New type variables are new

Type variables are numbered, and an inference counts them.  Whatever terms it walks over, and
wherever a walk fails, all types it holds are over variables that were counted.  This needs a look
at the solver, too: the type of a function that is solved comes out of it, and goes into the table
of signatures.

Main definitions:

- Functions {lit}`TypeEnv.types` and {lit}`Inference.types`: all types that are held.
- Structures {lit}`TypeEnv.IsFresh` and {lit}`Inference.IsFresh`: all variables were counted, and
  no two variables of terms share one.
- Function {lit}`Inference.after`: the inference after walks over any terms.

Main results:

- Theorem {lit}`TypeEnv.instantiate_eq_replace`: an instance is a type renamed to new variables.
- Theorem {lit}`Term.infer_staysFresh`: walks keep all of this, also where they fail.
- Theorem {lit}`Inference.isFresh_after`: the same for any walks in a row.
-/

namespace WhileLang

open TypeEnv (freshName freshName_injective)

theorem mem_of_lookup {α β : Type} [BEq α] [LawfulBEq α] {entries : List (α × β)} {key : α}
    {value : β} (h : entries.lookup key = some value) : (key, value) ∈ entries := by
  obtain ⟨before, behind, rfl, -⟩ := List.lookup_eq_some_iff.1 h
  exact List.mem_append_right _ List.mem_cons_self

/-! ## All types -/

/-- The types in the tables of an environment. -/
def TypeEnv.types (env : TypeEnv) : List Ty :=
  env.constraints.toList.flatMap (fun constraint => [constraint.1, constraint.2])
    ++ env.subterms.toList.map (·.type) ++ env.varTypes.map (·.2) ++ env.signatures.map (·.2)

/-- The types in a report. -/
def FunctionTypes.types (report : FunctionTypes) : List Ty :=
  report.signature :: report.subterms.map (·.2)

/-- The types that an inference holds. -/
def Inference.types (inference : Inference) : List Ty :=
  inference.env.types ++ inference.reports.flatMap FunctionTypes.types

theorem TypeEnv.forall_mem_types {env : TypeEnv} {P : Ty → Prop} :
    (∀ type ∈ env.types, P type) ↔
      (∀ constraint ∈ env.constraints.toList, P constraint.1 ∧ P constraint.2)
        ∧ (∀ row ∈ env.subterms.toList, P row.type) ∧ (∀ entry ∈ env.varTypes, P entry.2)
          ∧ ∀ entry ∈ env.signatures, P entry.2 := by
  simp only [types, List.forall_mem_append, List.forall_mem_flatMap, List.forall_mem_map,
    List.forall_mem_cons, List.not_mem_nil, false_imp_iff, implies_true, and_true, and_assoc]

/-! ## Environments -/

/-- All type variables of an environment were counted; variables of terms have different ones. -/
structure TypeEnv.IsFresh (env : TypeEnv) : Prop where
  below : ∀ type ∈ env.types, type.Below env.nextVar
  isVar : ∀ entry ∈ env.varTypes, ∃ number, entry.2 = .var (freshName number)
  nodup : (env.varTypes.map Prod.fst).Nodup
  distinct : ∀ entry ∈ env.varTypes, ∀ other ∈ env.varTypes, entry.1 ≠ other.1 → entry.2 ≠ other.2

/-- An environment yields a type over the variables counted afterwards. -/
structure TypeEnv.Issues (before after : TypeEnv) (type : Ty) : Prop where
  isFresh : after.IsFresh
  nextVar_le : before.nextVar ≤ after.nextVar
  below : type.Below after.nextVar

theorem Ty.Below.of_occurrences_eq_nil {bound : Nat} {type : Ty} (h : type.occurrences = []) :
    type.Below bound := by
  intro name hmem
  simp [h] at hmem

namespace TypeEnv.IsFresh

variable {env : TypeEnv}

theorem empty : TypeEnv.empty.IsFresh :=
  ⟨nofun, nofun, .nil, nofun⟩

/-- More numbers are in use. -/
theorem numbers (h : env.IsFresh) {nextVar : Nat} (hle : env.nextVar ≤ nextVar) (nextNode : Nat) :
    IsFresh { env with nextVar, nextNode } where
  below type hmem := (h.below type hmem).mono hle
  isVar := h.isVar
  nodup := h.nodup
  distinct := h.distinct

theorem constrain (h : env.IsFresh) {left right : Ty} (hleft : left.Below env.nextVar)
    (hright : right.Below env.nextVar) : (env.constrain left right).IsFresh where
  below := by
    obtain ⟨hconstraints, hrest⟩ := forall_mem_types.1 h.below
    refine forall_mem_types.2 ⟨?_, hrest⟩
    rw [TypeEnv.constrain, Array.toList_push]
    exact List.forall_mem_append.2
      ⟨hconstraints, List.forall_mem_singleton.2 ⟨hleft, hright⟩⟩
  isVar := h.isVar
  nodup := h.nodup
  distinct := h.distinct

theorem record (h : env.IsFresh) (node : Nat) (term : Term) {type : Ty}
    (htype : type.Below env.nextVar) (first : Nat) :
    (env.record node term type first).IsFresh where
  below := by
    obtain ⟨hconstraints, hrows, hrest⟩ := forall_mem_types.1 h.below
    refine forall_mem_types.2 ⟨hconstraints, ?_, hrest⟩
    rw [TypeEnv.record, Array.toList_push]
    exact List.forall_mem_append.2 ⟨hrows, List.forall_mem_singleton.2 htype⟩
  isVar := h.isVar
  nodup := h.nodup
  distinct := h.distinct

theorem mem_of_mem_rebind {name : String} {type : Ty} {entries : List (String × Ty)}
    {entry : String × Ty} (h : entry ∈ Subst.rebind name type entries) :
    entry = (name, type) ∨ entry ∈ entries := by
  induction entries with
  | nil => exact .inl (List.mem_singleton.1 h)
  | cons first rest ih =>
    rw [Subst.rebind] at h
    split at h
    · exact (List.mem_cons.1 h).imp_right (List.mem_cons_of_mem _)
    · obtain rfl | h := List.mem_cons.1 h
      · exact .inr List.mem_cons_self
      · exact (ih h).imp_right (List.mem_cons_of_mem _)

theorem recordSignature (h : env.IsFresh) (name : String) {type : Ty}
    (htype : type.Below env.nextVar) : (env.recordSignature name type).IsFresh where
  below := by
    obtain ⟨hconstraints, hrows, hvars, hsignatures⟩ := forall_mem_types.1 h.below
    refine forall_mem_types.2 ⟨hconstraints, hrows, hvars, fun entry hmem => ?_⟩
    obtain rfl | hmem := mem_of_mem_rebind hmem
    · exact htype
    · exact hsignatures entry hmem
  isVar := h.isVar
  nodup := h.nodup
  distinct := h.distinct

/-! ### Names -/

theorem fresh (h : env.IsFresh) : env.Issues env.fresh.2 env.fresh.1 where
  isFresh := h.numbers (Nat.le_succ _) _
  nextVar_le := Nat.le_succ _
  below := .fresh (Nat.lt_succ_self _)

/-- The first use of a variable gives it a type variable that no other one has. -/
theorem variableType (h : env.IsFresh) (var : TermVar) :
    env.Issues (env.variableType var).2 (env.variableType var).1 := by
  obtain ⟨hconstraints, hrows, hvars, hsignatures⟩ := forall_mem_types.1 h.below
  unfold TypeEnv.variableType
  cases hlookup : env.varTypes.lookup var with
  | some type => exact ⟨h, Nat.le_refl _, hvars _ (mem_of_lookup hlookup)⟩
  | none =>
    obtain ⟨hnew, hle, hbelow⟩ := h.fresh
    have hunused : ∀ entry ∈ env.varTypes, entry.1 ≠ var ∧ entry.2 ≠ env.fresh.1 := by
      intro entry hmem
      constructor
      · rintro rfl
        simpa using List.lookup_eq_none_iff.1 hlookup entry hmem
      · -- An old type variable has a smaller number than the new one.
        intro heq
        obtain ⟨number, hlt, hname⟩ := hvars entry hmem (freshName env.nextVar)
          (by rw [heq]; exact List.mem_singleton.2 rfl)
        exact hlt.ne (freshName_injective hname.symm)
    refine ⟨⟨?_, ?_, ?_, ?_⟩, hle, hbelow⟩
    · obtain ⟨hconstraints, hrows, hvars, hsignatures⟩ := forall_mem_types.1 hnew.below
      exact forall_mem_types.2 ⟨hconstraints, hrows,
        List.forall_mem_append.2 ⟨hvars, List.forall_mem_singleton.2 hbelow⟩, hsignatures⟩
    · exact List.forall_mem_append.2 ⟨h.isVar, List.forall_mem_singleton.2 ⟨_, rfl⟩⟩
    · rw [List.map_append]
      refine List.nodup_append.2 ⟨h.nodup, List.nodup_singleton _, ?_⟩
      rintro key hkey other hother rfl
      obtain ⟨entry, hmem, rfl⟩ := List.mem_map.1 hkey
      exact (hunused entry hmem).1 (List.mem_singleton.1 hother)
    · intro entry hentry other hother hne
      rcases List.mem_append.1 hentry with hentry | hentry
      · rcases List.mem_append.1 hother with hother | hother
        · exact h.distinct entry hentry other hother hne
        · rw [List.mem_singleton.1 hother]
          exact (hunused entry hentry).2
      · rcases List.mem_append.1 hother with hother | hother
        · rw [List.mem_singleton.1 hentry]
          exact (hunused other hother).2.symm
        · exact absurd ((List.mem_singleton.1 hentry).trans (List.mem_singleton.1 hother).symm)
            fun heq => hne (congrArg Prod.fst heq)

end TypeEnv.IsFresh

/-- Renaming numbers the new names from the next number on, in the order of the old ones. -/
theorem TypeEnv.renameFresh_apply (env : TypeEnv) {names : List String} {name : String}
    (hmem : name ∈ names) :
    (env.renameFresh names).1.apply (.var name)
      = .var (freshName (env.nextVar + names.idxOf name)) := by
  induction names generalizing env with
  | nil => cases hmem
  | cons first names ih =>
    by_cases heq : name = first
    · simp [renameFresh, Subst.apply, Subst.get?, heq, fresh]
    · have hrest := ih env.fresh.2 ((List.mem_cons.1 hmem).resolve_left heq)
      have happly : (env.renameFresh (first :: names)).1.apply (.var name)
          = (env.fresh.2.renameFresh names).1.apply (.var name) := by
        simp [renameFresh, Subst.apply, Subst.get?, List.lookup_cons, beq_eq_false_iff_ne.2 heq]
      rw [happly, hrest, List.idxOf_cons_ne _ (Ne.symm heq)]
      simp only [fresh, Nat.succ_eq_add_one, Nat.add_assoc, Nat.add_comm 1]

/-- An instance of a type is the type with its variables renamed, each to one of its own, which is
new. -/
theorem TypeEnv.instantiate_eq_replace (env : TypeEnv) (general : Ty) :
    ∃ rename : String → String,
      (env.instantiate general).1 = general.replace (fun name => .var (rename name))
        ∧ Set.InjOn rename {name | name ∈ general.occurrences}
        ∧ ∀ name ∈ general.occurrences,
          Numbered env.nextVar (env.instantiate general).2.nextVar (rename name) := by
  have hvars {name : String} (hmem : name ∈ general.occurrences) : name ∈ general.vars :=
    List.mem_eraseDups.2 hmem
  have hafter : (env.instantiate general).2
      = { env with nextVar := env.nextVar + general.vars.length } :=
    (renameFresh_spec env general.vars).after_eq
  refine ⟨fun name => freshName (env.nextVar + general.vars.idxOf name), ?_, ?_, ?_⟩
  · calc
      (env.instantiate general).1
        = general.replace fun name => (env.renameFresh general.vars).1.apply (.var name) :=
          Subst.apply_eq_replace _ _
      _ = _ := Ty.replace_congr fun name hmem => env.renameFresh_apply (hvars hmem)
  · intro name hmem other _ heq
    have hindex := Nat.add_left_cancel (freshName_injective heq)
    exact (List.idxOf_inj (hvars hmem)).1 hindex
  · intro name hmem
    rw [hafter, numbered_freshName]
    have hindex := List.idxOf_lt_length_iff.2 (hvars hmem)
    exact ⟨Nat.le_add_right _ _, Nat.add_lt_add_left hindex _⟩

namespace TypeEnv.IsFresh

variable {env : TypeEnv}

theorem instantiate (h : env.IsFresh) (general : Ty) :
    env.Issues (env.instantiate general).2 (env.instantiate general).1 := by
  have hafter : (env.instantiate general).2
      = { env with nextVar := env.nextVar + general.vars.length } :=
    (renameFresh_spec env general.vars).after_eq
  have hle : env.nextVar ≤ env.nextVar + general.vars.length := Nat.le_add_right _ _
  obtain ⟨rename, htype, -, hnew⟩ := env.instantiate_eq_replace general
  refine ⟨hafter ▸ h.numbers hle _, hafter ▸ hle, fun name hmem => ?_⟩
  rw [htype] at hmem
  obtain ⟨other, hother, hmem⟩ := Ty.mem_occurrences_replace.1 hmem
  obtain ⟨number, -, hlt, hname⟩ := hnew other hother
  exact ⟨number, hlt, (List.mem_singleton.1 hmem).trans hname⟩

theorem leaf (h : env.IsFresh) (var : TermVar) : env.Issues (env.leaf var).2 (env.leaf var).1 := by
  unfold TypeEnv.leaf
  cases var.scope with
  | some scope => exact h.variableType var
  | none =>
    cases hbuiltin : builtinType? var.name with
    | some type =>
      exact ⟨h, Nat.le_refl _, .of_occurrences_eq_nil (occurrences_builtinType? hbuiltin)⟩
    | none =>
      unfold globalLeaf
      cases hscheme : schemeType? var.name with
      | some scheme =>
        obtain ⟨hnew, hle, hbelow⟩ := h.fresh
        exact ⟨hnew, hle, fun name hmem => hbelow name (occurrences_schemeType? hscheme _ hmem)⟩
      | none =>
        cases env.signature? var.name with
        | some general => exact h.instantiate general
        | none => exact h.variableType var

theorem recordParam (h : env.IsFresh) (param : TermVar) :
    env.Issues (env.recordParam param).2 (env.recordParam param).1 := by
  obtain ⟨hnew, hle, hbelow⟩ := h.variableType param
  have hnode := hnew.numbers (Nat.le_refl _) ((env.variableType param).2.nextNode + 1)
  exact ⟨hnode.record _ _ hbelow _, hle, hbelow⟩

end TypeEnv.IsFresh

/-! ## Solutions -/

/-- What solves equations brings in no variables but theirs. -/
theorem Ty.Below.solved {bound : Nat} {constraints : List Constraint} {solution : Subst} {type : Ty}
    (h : type.Below bound) (hsolution : unify constraints = .ok solution)
    (hconstraints : ∀ constraint ∈ constraints,
      constraint.1.Below bound ∧ constraint.2.Below bound) : (solution.apply type).Below bound := by
  have hgeneral := unify_isMostGeneral constraints
  rw [hsolution] at hgeneral
  intro name hmem
  obtain ⟨other, hother, ⟨-, rfl⟩ | ⟨found, hfound, hmem⟩⟩ := Subst.mem_occurrences_apply.1 hmem
  · exact h name hother
  · have hwithin := hgeneral.mentions_only _ (mem_of_lookup hfound) name hmem
    obtain ⟨constraint, hconstraint, hmem⟩ := List.mem_flatMap.1 hwithin
    obtain ⟨hleft, hright⟩ := hconstraints constraint hconstraint
    exact (List.mem_append.1 hmem).elim (hleft name) (hright name)

/-! ## Inferences -/

namespace Inference

/-- All type variables of an inference were counted. -/
structure IsFresh (inference : Inference) : Prop where
  env : inference.env.IsFresh
  reports : ∀ report ∈ inference.reports, ∀ type ∈ report.types, type.Below inference.env.nextVar

/-- A walk leaves a fresh inference, whether it yields a type or fails. -/
structure StaysFresh (before : Inference) (outcome : Except SemanticError Ty × Inference) :
    Prop where
  isFresh : outcome.2.IsFresh
  nextVar_le : before.env.nextVar ≤ outcome.2.env.nextVar
  below : ∀ type, outcome.1 = .ok type → type.Below outcome.2.env.nextVar

namespace IsFresh

variable {before inside : Inference}

/-- Another environment with no fewer variables holds the same reports. -/
theorem withEnv (h : before.IsFresh) {env : TypeEnv} (henv : env.IsFresh)
    (hle : before.env.nextVar ≤ env.nextVar) : ({ before with env } : Inference).IsFresh :=
  ⟨henv, fun report hreport type hmem => (h.reports report hreport type hmem).mono hle⟩

theorem below (h : before.IsFresh) : ∀ type ∈ before.types, type.Below before.env.nextVar := by
  refine List.forall_mem_append.2 ⟨h.env.below, fun type hmem => ?_⟩
  obtain ⟨report, hreport, hmem⟩ := List.mem_flatMap.1 hmem
  exact h.reports report hreport type hmem

theorem within (h : before.IsFresh) : before.within.IsFresh :=
  h.withEnv (h.env.numbers (Nat.le_succ _) _) (Nat.le_succ _)

theorem constrain (h : inside.IsFresh) {left right : Ty} (hleft : left.Below inside.env.nextVar)
    (hright : right.Below inside.env.nextVar) :
    (inside.withEnv (·.constrain left right)).IsFresh :=
  h.withEnv (h.env.constrain hleft hright) (Nat.le_refl _)

/-- A definition is reported with types over the variables of its equations. -/
theorem define (h : inside.IsFresh) (name : String) {mark : Nat} {solution : Subst}
    (hsolution : inside.env.solveFrom mark = .ok solution) {type : Ty}
    (htype : type.Below inside.env.nextVar) (first : Nat) :
    (inside.define name (solution.apply type) first solution).IsFresh := by
  obtain ⟨hconstraints, hrows, -⟩ := TypeEnv.forall_mem_types.1 h.env.below
  have hsolved {type : Ty} (htype : type.Below inside.env.nextVar) :
      (solution.apply type).Below inside.env.nextVar :=
    htype.solved hsolution fun constraint hmem =>
      hconstraints constraint (List.mem_of_mem_drop hmem)
  refine ⟨h.env.recordSignature name (hsolved htype), ?_⟩
  refine List.forall_mem_append.2 ⟨h.reports, List.forall_mem_singleton.2 ?_⟩
  refine List.forall_mem_cons.2 ⟨hsolved htype, List.forall_mem_map.2 fun pair hpair => ?_⟩
  obtain ⟨row, hrow, rfl⟩ := List.mem_map.1 (mem_of_mem_distinctByPrint hpair)
  have hmem := List.mem_of_mem_take (List.mem_of_mem_drop (List.mem_of_mem_filter hrow))
  exact hsolved (hrows row hmem)

/-- A node is left with an equation and a row of its own. -/
theorem close (term : Term) (h : inside.IsFresh) (hlt : before.env.nextVar < inside.env.nextVar)
    {left right : Ty} (hleft : left.Below inside.env.nextVar)
    (hright : right.Below inside.env.nextVar) :
    before.StaysFresh
      (.ok before.nodeType, before.close term (inside.withEnv (·.constrain left right))) := by
  have hnode : before.nodeType.Below inside.env.nextVar := .fresh hlt
  refine ⟨?_, Nat.le_of_lt hlt, fun type htype => ?_⟩
  · exact (h.constrain hleft hright).withEnv
      ((h.env.constrain hleft hright).record _ term hnode _) (Nat.le_refl _)
  · cases htype
    exact hnode

end IsFresh

namespace StaysFresh

variable {before middle : Inference} {outcome : Except SemanticError Ty × Inference}

/-- What stays fresh behind a later inference does so behind an earlier one. -/
theorem behind (h : middle.StaysFresh outcome) (hle : before.env.nextVar ≤ middle.env.nextVar) :
    before.StaysFresh outcome :=
  ⟨h.isFresh, hle.trans h.nextVar_le, h.below⟩

end StaysFresh

end Inference

/-! ## The walk -/

namespace Term

open Inference (StaysFresh)

variable {before : Inference}

theorem infer_app_eq (function argument : Term) (before : Inference) :
    (app function argument).infer before =
      match function.infer before.within with
      | (.error error, middle) => (.error error, middle)
      | (.ok functionType, middle) =>
        match argument.infer middle with
        | (.error error, inside) => (.error error, inside)
        | (.ok argumentType, inside) => (.ok before.nodeType, before.close (app function argument)
            (inside.withEnv (·.constrain functionType (.arrow argumentType before.nodeType)))) :=
  rfl

theorem infer_abs_eq (param : TermVar) (body : Term) (before : Inference) :
    (abs param body).infer before =
      match body.infer (before.withParam param) with
      | (.error error, inside) => (.error error, inside)
      | (.ok bodyType, inside) => (.ok before.nodeType, before.close (abs param body)
          (inside.withEnv (·.constrain before.nodeType
            (.arrow (before.within.env.recordParam param).1 bodyType)))) :=
  rfl

theorem infer_letIn_error {name : TermVar} {bound : Term} {error : SemanticError}
    {solved : Inference} (hbound : bound.infer (before.withName name) = (.error error, solved))
    (body : Term) : (letIn name bound body).infer before = (.error error, solved) := by
  simp only [Inference.withName, Inference.within, TypeEnv.newNode, TypeEnv.fresh] at hbound
  simp only [infer, TypeEnv.newNode, TypeEnv.fresh, hbound]

/-- A walk counts all type variables that it brings in, also where it fails. -/
theorem infer_staysFresh (term : Term) (h : before.IsFresh) :
    before.StaysFresh (term.infer before) := by
  induction term generalizing before with
  | var leaf =>
    obtain ⟨hfresh, hle, hbelow⟩ := h.within.env.leaf leaf
    have hinside := h.within.withEnv hfresh hle
    exact hinside.close (.var leaf) hle (.fresh hle) hbelow
  | literal value =>
    have hlt : before.env.nextVar < before.within.env.nextVar := Nat.lt_succ_self _
    exact h.within.close (.literal value) hlt (.fresh hlt) (.of_occurrences_eq_nil rfl)
  | app function argument ihf iha =>
    have hfunction := ihf h.within
    rw [infer_app_eq]
    rcases hf : function.infer before.within with ⟨result, middle⟩
    rw [hf] at hfunction
    have hlt : before.env.nextVar < middle.env.nextVar := hfunction.nextVar_le
    cases result with
    | error error => exact hfunction.behind (Nat.le_succ _)
    | ok functionType =>
      have hargument := iha hfunction.isFresh
      dsimp only
      rcases ha : argument.infer middle with ⟨result, inside⟩
      rw [ha] at hargument
      have hle : middle.env.nextVar ≤ inside.env.nextVar := hargument.nextVar_le
      cases result with
      | error error => exact hargument.behind hlt.le
      | ok argumentType =>
        have hftype := (hfunction.below functionType rfl).mono hle
        have hatype := hargument.below argumentType rfl
        exact hargument.isFresh.close _ (hlt.trans_le hle) hftype
          (hatype.arrow (.fresh (hlt.trans_le hle)))
  | abs param body ih =>
    obtain ⟨hfresh, hle, hparam⟩ := h.within.env.recordParam param
    have hbody := ih (h.within.withEnv hfresh hle)
    rw [infer_abs_eq]
    change StaysFresh _ (body.infer (before.withParam param)) at hbody
    rcases hb : body.infer (before.withParam param) with ⟨result, inside⟩
    rw [hb] at hbody
    have hlt : before.env.nextVar < inside.env.nextVar := Nat.lt_of_lt_of_le hle hbody.nextVar_le
    cases result with
    | error error => exact hbody.behind (Nat.le_of_lt hle)
    | ok bodyType =>
      exact hbody.isFresh.close _ hlt (.fresh hlt)
        ((hparam.mono hbody.nextVar_le).arrow (hbody.below bodyType rfl))
  | letIn name bound body ihbound ihbody =>
    obtain ⟨hfresh, hle, hname⟩ := h.within.env.variableType name
    have hbound := ihbound (h.within.withEnv hfresh hle)
    change StaysFresh (before.withName name) (bound.infer (before.withName name)) at hbound
    rcases hb : bound.infer (before.withName name) with ⟨result, solved⟩
    rw [hb] at hbound
    have hlt : before.env.nextVar < solved.env.nextVar := Nat.lt_of_lt_of_le hle hbound.nextVar_le
    cases result with
    | error error =>
      rw [infer_letIn_error hb]
      exact hbound.behind (Nat.le_of_lt hle)
    | ok boundType =>
      obtain rfl := infer_type hb
      have htype := hbound.below _ rfl
      have hdefined : (before.defined name solved).IsFresh :=
        hbound.isFresh.constrain (hname.mono hbound.nextVar_le) htype
      rw [infer_letIn hb]
      cases hsolve : (before.defined name solved).env.solveFrom before.env.constraints.size with
      | error error => exact ⟨hdefined, hlt.le, nofun⟩
      | ok solution =>
        have hnext : (before.next name solved solution).IsFresh :=
          hdefined.define name.name hsolve htype _
        have hinside := ihbody hnext
        dsimp only
        rcases hi : body.infer (before.next name solved solution) with ⟨result, inside⟩
        rw [hi] at hinside
        have hlt' : before.env.nextVar < inside.env.nextVar :=
          Nat.lt_of_lt_of_le hlt hinside.nextVar_le
        cases result with
        | error error => exact hinside.behind hlt.le
        | ok bodyType =>
          exact hinside.isFresh.close _ hlt' (.fresh hlt') (hinside.below bodyType rfl)

end Term

/-! ## Walks in a row -/

namespace Inference

/-- The inference after walks over some terms in a row, whether these end well or fail. -/
def after (terms : List Term) : Inference :=
  terms.foldl (fun inference term => (term.infer inference).2) .empty

/-- A type is another one with its variables renamed, each to one of its own that is not held. -/
def RenamesApart (inference : Inference) (general renamed : Ty) : Prop :=
  ∃ rename : String → String, renamed = general.replace (fun name => .var (rename name))
    ∧ Set.InjOn rename {name | name ∈ general.occurrences}
    ∧ ∀ name ∈ general.occurrences, ∀ type ∈ inference.types, rename name ∉ type.occurrences

/-- New type variables do not occur in what a fresh inference holds. -/
theorem IsFresh.renamesApart {inference : Inference} (h : inference.IsFresh) (general : Ty) :
    inference.RenamesApart general (inference.env.instantiate general).1 := by
  obtain ⟨rename, htype, hinjective, hnew⟩ := inference.env.instantiate_eq_replace general
  refine ⟨rename, htype, hinjective, fun name hmem type htype hold => ?_⟩
  obtain ⟨number, hle, -, hname⟩ := hnew name hmem
  obtain ⟨other, hlt, hother⟩ := h.below type htype _ hold
  have heq := freshName_injective (hname.symm.trans hother)
  omega

/--
After any walks in a row all type variables that are held were counted, and variables of terms have
different ones.  An instance of a type that was recorded has new type variables in the places of its
own.
-/
theorem isFresh_after (terms : List Term) :
    (after terms).IsFresh ∧ ∀ entry ∈ (after terms).env.signatures,
      (after terms).RenamesApart entry.2 ((after terms).env.instantiate entry.2).1 := by
  have hfresh : (after terms).IsFresh := by
    unfold after
    induction terms using List.reverseRecOn with
    | nil => exact ⟨.empty, nofun⟩
    | append_singleton terms term ih =>
      rw [List.foldl_append]
      exact (term.infer_staysFresh ih).isFresh
  exact ⟨hfresh, fun entry _ => hfresh.renamesApart entry.2⟩

/-- A definition that cannot be solved, as its term applies a number. -/
def misapplied : Term :=
  .letIn (.global "f") (.app (.literal (.int 1)) (.literal (.int 2))) (.literal (.int 3))

/-- A definition of a function that returns its argument. -/
def identity : Term :=
  .letIn (.global "same") (.abs (.ofFunction "x" "same") (.var (.ofFunction "x" "same")))
    (.literal (.int 1))

/-- The first walk fails, and leaves equations; the second one records a type with a variable. -/
theorem isFresh_after_misapplied :
    (misapplied.infer .empty).1.isOk = false
      ∧ (after [misapplied, identity]).IsFresh
      ∧ (after [misapplied, identity]).env.signatures
        = [("same", .arrow (.var "a8") (.var "a8"))]
      ∧ (after [misapplied, identity]).RenamesApart (.arrow (.var "a8") (.var "a8"))
        (.arrow (.var "a11") (.var "a11")) := by
  have hsignatures : (after [misapplied, identity]).env.signatures
      = [("same", .arrow (.var "a8") (.var "a8"))] := by decide +kernel
  have hinstance : ((after [misapplied, identity]).env.instantiate
      (.arrow (.var "a8") (.var "a8"))).1 = .arrow (.var "a11") (.var "a11") := by decide +kernel
  obtain ⟨hfresh, hrenames⟩ := isFresh_after [misapplied, identity]
  have hsame := hrenames ("same", .arrow (.var "a8") (.var "a8"))
    (hsignatures ▸ List.mem_cons_self)
  rw [hinstance] at hsame
  exact ⟨by decide +kernel, hfresh, hsignatures, hsame⟩

end Inference

end WhileLang

import Mathlib.Logic.Function.Basic
import WhileLang.Proofs.Term.Typing
import WhileLang.Proofs.Ty.Instances

/-!
# Fresh type variables

Type variables are numbered, and new ones have greater numbers than all before.  So whatever an
assignment gives to the variables in use, it can be extended to new ones freely, and every typing of
a name can be brought about by the types of the new variables.

Main definitions:

- Predicate {lit}`Ty.Below`: a type has variables of smaller numbers only.
- Relation {lit}`Keeps`: an assignment keeps the types of the variables of smaller numbers.
- Structure {lit}`TypeEnv.IsScoped`: no variable of an environment is new.
- Structure {lit}`TypeEnv.Determines`: the equations between two environments allow exactly the
  types of a judgement.

Main results:

- Theorem {lit}`TypeEnv.IsScoped.exists_agrees`: any types of variables are those of an assignment.
- Theorem {lit}`TypeEnv.leaf_determines`: the type of a name can become exactly the types that the
  name has.
-/

namespace WhileLang

/-! ## Numbered variables -/

theorem TypeEnv.freshName_injective : Function.Injective TypeEnv.freshName := by
  intro first second h
  have htexts := congrArg String.toList h
  have hdigits : Nat.toDigits 10 first = Nat.toDigits 10 second := by
    simpa [TypeEnv.freshName, Nat.toList_repr] using htexts
  calc
    first = Nat.ofDigitChars 10 (Nat.toDigits 10 first) 0 := Nat.ofDigitChars_ten_toDigits.symm
    _ = Nat.ofDigitChars 10 (Nat.toDigits 10 second) 0 := by rw [hdigits]
    _ = second := Nat.ofDigitChars_ten_toDigits

/-- The variables of a type have smaller numbers. -/
def Ty.Below (bound : Nat) (type : Ty) : Prop :=
  ∀ name ∈ type.occurrences, ∃ number < bound, name = TypeEnv.freshName number

/-- An assignment gives to the variables of smaller numbers what another one gives to them. -/
def Keeps (bound : Nat) (assignment extended : String → Ty) : Prop :=
  ∀ number < bound,
    extended (TypeEnv.freshName number) = assignment (TypeEnv.freshName number)

namespace Ty.Below

variable {bound larger : Nat} {type : Ty}

theorem mono (h : type.Below bound) (hle : bound ≤ larger) : type.Below larger := by
  intro name hmem
  obtain ⟨number, hlt, rfl⟩ := h name hmem
  exact ⟨number, hlt.trans_le hle, rfl⟩

theorem fresh {number : Nat} (h : number < bound) :
    (Ty.var (TypeEnv.freshName number)).Below bound := by
  intro name hmem
  obtain rfl := List.mem_singleton.1 hmem
  exact ⟨number, h, rfl⟩

theorem arrow {domain codomain : Ty} (hdomain : domain.Below bound)
    (hcodomain : codomain.Below bound) : (Ty.arrow domain codomain).Below bound :=
  fun name hmem => (List.mem_append.1 hmem).elim (hdomain name) (hcodomain name)

/-- A type in use keeps its meaning. -/
theorem replace_eq {assignment extended : String → Ty} (h : type.Below bound)
    (hkeeps : Keeps bound assignment extended) :
    type.replace extended = type.replace assignment := by
  refine replace_congr fun name hmem => ?_
  obtain ⟨number, hlt, rfl⟩ := h name hmem
  exact hkeeps number hlt

end Ty.Below

namespace Keeps

variable {bound larger : Nat} {first second third : String → Ty}

theorem refl (bound : Nat) (assignment : String → Ty) : Keeps bound assignment assignment :=
  fun _ _ => rfl

theorem trans (h : Keeps bound first second) (h' : Keeps larger second third)
    (hle : bound ≤ larger) : Keeps bound first third :=
  fun number hlt => (h' number (hlt.trans_le hle)).trans (h number hlt)

/-- The next variable can be given any type. -/
theorem update (bound : Nat) (assignment : String → Ty) (type : Ty) :
    Keeps bound assignment (Function.update assignment (TypeEnv.freshName bound) type) := by
  intro number hlt
  refine Function.update_of_ne (fun heq => ?_) _ _
  exact hlt.ne (TypeEnv.freshName_injective heq)

end Keeps

/-! ## Environments -/

namespace TypeEnv

/-- No variable of an environment is new, and different variables of terms have different ones. -/
structure IsScoped (env : TypeEnv) : Prop where
  fresh {var : TermVar} {type : Ty} : env.varTypes.lookup var = some type →
    ∃ number < env.nextVar, type = .var (freshName number)
  distinct {var other : TermVar} {type : Ty} : env.varTypes.lookup var = some type →
    env.varTypes.lookup other = some type → var = other
  constraints : ∀ constraint ∈ env.constraints.toList,
    constraint.1.Below env.nextVar ∧ constraint.2.Below env.nextVar

namespace IsScoped

variable {env : TypeEnv}

theorem empty : TypeEnv.empty.IsScoped where
  fresh := nofun
  distinct := nofun
  constraints := nofun

theorem below (h : env.IsScoped) {var : TermVar} {type : Ty}
    (hlookup : env.varTypes.lookup var = some type) : type.Below env.nextVar := by
  obtain ⟨number, hlt, rfl⟩ := h.fresh hlookup
  exact .fresh hlt

/-- More numbers are in use, for nodes or for type variables. -/
theorem numbers (h : env.IsScoped) {nextVar : Nat} (hle : env.nextVar ≤ nextVar) (nextNode : Nat) :
    IsScoped { env with nextVar, nextNode } where
  fresh hlookup := by
    obtain ⟨number, hlt, rfl⟩ := h.fresh hlookup
    exact ⟨number, hlt.trans_le hle, rfl⟩
  distinct := h.distinct
  constraints constraint hmem :=
    ⟨(h.constraints constraint hmem).1.mono hle, (h.constraints constraint hmem).2.mono hle⟩

theorem constrain (h : env.IsScoped) {left right : Ty} (hleft : left.Below env.nextVar)
    (hright : right.Below env.nextVar) : (env.constrain left right).IsScoped where
  fresh := h.fresh
  distinct := h.distinct
  constraints := by
    intro constraint hmem
    rw [TypeEnv.constrain, Array.toList_push] at hmem
    rcases List.mem_append.1 hmem with hmem | hmem
    · exact h.constraints constraint hmem
    · obtain rfl := List.mem_singleton.1 hmem
      exact ⟨hleft, hright⟩

/-- The types of variables that agree with an assignment agree with all that keep it. -/
theorem agrees (h : env.IsScoped) {assignment extended : String → Ty} {varTypes : TermVar → Ty}
    (hagrees : env.Agrees assignment varTypes) (hkeeps : Keeps env.nextVar assignment extended) :
    env.Agrees extended varTypes := by
  intro var type hlookup
  rw [(h.below hlookup).replace_eq hkeeps]
  exact hagrees var type hlookup

/-- What solves the equations of an environment still does so when new variables get types. -/
theorem solves (h : env.IsScoped) {assignment extended : String → Ty}
    {constraints : List Constraint} (hsub : constraints ⊆ env.constraints.toList)
    (hsolves : Solves assignment constraints) (hkeeps : Keeps env.nextVar assignment extended) :
    Solves extended constraints := by
  intro constraint hmem
  obtain ⟨hleft, hright⟩ := h.constraints constraint (hsub hmem)
  rw [hleft.replace_eq hkeeps, hright.replace_eq hkeeps]
  exact hsolves constraint hmem

/-- Variables may have any types, for no two of them share a type variable. -/
theorem exists_agrees (h : env.IsScoped) (varTypes : TermVar → Ty) :
    ∃ assignment, env.Agrees assignment varTypes := by
  classical
  refine ⟨fun name => if hname : ∃ var, env.varTypes.lookup var = some (.var name)
    then varTypes hname.choose else .var name, ?_⟩
  intro var type hlookup
  obtain ⟨number, -, rfl⟩ := h.fresh hlookup
  have hname : ∃ var, env.varTypes.lookup var = some (.var (freshName number)) := ⟨var, hlookup⟩
  rw [Ty.replace, dif_pos hname, h.distinct hname.choose_spec hlookup]

end IsScoped

/-! ## Judgements -/

/--
What was added to an environment determines a type: every solution of the equations makes it a type
that the judgement allows, and every type that is allowed is made by a solution, whatever the
variables before were assigned.
-/
structure Determines (before after : TypeEnv) (constraints : List Constraint)
    (Judgement : (TermVar → Ty) → Ty → Prop) (type : Ty) : Prop where
  isScoped : after.IsScoped
  below : type.Below after.nextVar
  nextVar_le : before.nextVar ≤ after.nextVar
  constraints_eq : after.constraints.toList = before.constraints.toList ++ constraints
  varTypes {var : TermVar} {type : Ty} :
    before.varTypes.lookup var = some type → after.varTypes.lookup var = some type
  sound {assignment : String → Ty} {varTypes : TermVar → Ty} : Solves assignment constraints →
    after.Agrees assignment varTypes → Judgement varTypes (type.replace assignment)
  complete {assignment : String → Ty} {varTypes : TermVar → Ty} {given : Ty} :
    before.Agrees assignment varTypes → Judgement varTypes given →
      ∃ extended, Keeps before.nextVar assignment extended ∧ Solves extended constraints
        ∧ after.Agrees extended varTypes ∧ type.replace extended = given

namespace Determines

variable {before after : TypeEnv} {constraints : List Constraint}
  {Judgement : (TermVar → Ty) → Ty → Prop} {type : Ty}

theorem agrees (h : Determines before after constraints Judgement type) {assignment : String → Ty}
    {varTypes : TermVar → Ty} (hagrees : after.Agrees assignment varTypes) :
    before.Agrees assignment varTypes :=
  fun _ _ hlookup => hagrees _ _ (h.varTypes hlookup)

theorem constraints_subset (h : Determines before after constraints Judgement type) :
    constraints ⊆ after.constraints.toList := by
  rw [h.constraints_eq]
  exact List.subset_append_right _ _

/-- The instances of the solved type are the types that the judgement allows. -/
theorem isInstance_iff (h : Determines before after constraints Judgement type)
    (hscoped : before.IsScoped) {solution : Subst} (hsolution : unify constraints = .ok solution)
    {given : Ty} :
    given.IsInstance (solution.apply type) ↔ ∃ varTypes, Judgement varTypes given := by
  rw [isInstance_apply_iff hsolution]
  constructor
  · rintro ⟨assignment, hsolves, rfl⟩
    obtain ⟨varTypes, hagrees⟩ : ∃ varTypes, after.Agrees assignment varTypes :=
      ⟨fun var => ((after.varTypes.lookup var).getD default).replace assignment,
        fun var type hlookup => by simp only [hlookup, Option.getD_some]⟩
    exact ⟨varTypes, h.sound hsolves hagrees⟩
  · rintro ⟨varTypes, hjudged⟩
    obtain ⟨assignment, hagrees⟩ := hscoped.exists_agrees varTypes
    obtain ⟨extended, -, hsolves, -, rfl⟩ := h.complete hagrees hjudged
    exact ⟨extended, hsolves, rfl⟩

/-- Where the equations cannot be solved, the judgement allows nothing. -/
theorem not_judged (h : Determines before after constraints Judgement type)
    (hscoped : before.IsScoped) {error : SemanticError} (herror : unify constraints = .error error)
    (varTypes : TermVar → Ty) (given : Ty) : ¬ Judgement varTypes given := by
  intro hjudged
  obtain ⟨assignment, hagrees⟩ := hscoped.exists_agrees varTypes
  obtain ⟨extended, -, hsolves, -, -⟩ := h.complete hagrees hjudged
  exact not_solves_of_unify herror extended hsolves

end Determines

/-! ## Names -/

variable {env : TypeEnv}

/-- A new type variable can become any type. -/
theorem fresh_determines (h : env.IsScoped) :
    Determines env env.fresh.2 [] (fun _ _ => True) env.fresh.1 where
  isScoped := h.numbers (Nat.le_succ _) _
  below := .fresh (Nat.lt_succ_self _)
  nextVar_le := Nat.le_succ _
  constraints_eq := (List.append_nil _).symm
  varTypes := id
  sound _ _ := trivial
  complete {assignment _ given} hagrees _ :=
    ⟨_, .update _ assignment given, solves_nil _, h.agrees hagrees (.update _ _ _),
      Function.update_self ..⟩

/-- A type without variables stays what it is. -/
theorem closed_determines (h : env.IsScoped) {type : Ty} (hclosed : type.occurrences = []) :
    Determines env env [] (fun _ given => given = type) type := by
  have hsame (f : String → Ty) : type.replace f = type := by
    conv_rhs => rw [← type.replace_var]
    exact Ty.replace_congr fun name hmem => by simp [hclosed] at hmem
  refine ⟨h, fun name hmem => ?_, Nat.le_refl _, (List.append_nil _).symm, id,
    fun _ _ => hsame _, ?_⟩
  · simp [hclosed] at hmem
  · rintro assignment varTypes given hagrees rfl
    exact ⟨assignment, .refl _ _, solves_nil _, hagrees, hsame _⟩

theorem lookup_concat {entries : List (TermVar × Ty)} {var other : TermVar} {type found : Ty}
    (h : (entries ++ [(var, type)]).lookup other = some found) :
    entries.lookup other = some found ∨ other = var ∧ found = type := by
  rw [List.lookup_append] at h
  cases hold : entries.lookup other with
  | some old =>
    rw [hold] at h
    exact .inl h
  | none =>
    rw [hold, Option.none_or, List.lookup_cons] at h
    split at h
    · rename_i heq
      exact .inr ⟨by simpa using heq, (Option.some.inj h).symm⟩
    · cases h

/-- The type of a variable is that which the variable has. -/
theorem variableType_determines (h : env.IsScoped) (var : TermVar) :
    Determines env (env.variableType var).2 [] (fun varTypes type => type = varTypes var)
      (env.variableType var).1 := by
  unfold variableType
  cases hlookup : env.varTypes.lookup var with
  | some type =>
    refine ⟨h, h.below hlookup, Nat.le_refl _, (List.append_nil _).symm, id, ?_, ?_⟩
    · exact fun _ hagrees => (hagrees var type hlookup).symm
    · rintro assignment varTypes given hagrees rfl
      exact ⟨assignment, .refl _ _, solves_nil _, hagrees, (hagrees var type hlookup).symm⟩
  | none =>
    have hfresh := fresh_determines h
    have hnew : (env.varTypes ++ [(var, env.fresh.1)]).lookup var = some env.fresh.1 := by
      simp [List.lookup_append, hlookup]
    refine ⟨⟨?_, ?_, hfresh.isScoped.constraints⟩, hfresh.below, hfresh.nextVar_le,
      hfresh.constraints_eq, ?_, ?_, ?_⟩
    · intro other type hother
      rcases lookup_concat hother with hold | ⟨-, rfl⟩
      · exact hfresh.isScoped.fresh hold
      · exact ⟨env.nextVar, Nat.lt_succ_self _, rfl⟩
    · -- An old type variable has a smaller number than the new one.
      have hne {other : TermVar} {type : Ty} (hold : env.varTypes.lookup other = some type) :
          type ≠ env.fresh.1 := by
        obtain ⟨number, hlt, rfl⟩ := h.fresh hold
        intro heq
        exact hlt.ne (freshName_injective (Ty.var.inj heq))
      intro first second type hfirst hsecond
      rcases lookup_concat hfirst with hold | ⟨rfl, rfl⟩
      · rcases lookup_concat hsecond with hold' | ⟨rfl, rfl⟩
        · exact h.distinct hold hold'
        · exact (hne hold rfl).elim
      · rcases lookup_concat hsecond with hold' | ⟨rfl, -⟩
        · exact (hne hold' rfl).elim
        · rfl
    · intro other type hold
      simp only [fresh, List.lookup_append, hold, Option.some_or]
    · exact fun _ hagrees => (hagrees var _ hnew).symm
    · rintro assignment varTypes given hagrees rfl
      obtain ⟨extended, hkeeps, hsolves, hafter, htype⟩ := hfresh.complete hagrees trivial
      refine ⟨extended, hkeeps, hsolves, fun other type hother => ?_, htype⟩
      rcases lookup_concat hother with hold | ⟨rfl, rfl⟩
      · exact hafter other type hold
      · exact htype.symm

/-! ## Instances -/

/-- New type variables were given to names, and they can become any types. -/
structure RenamesFresh (names : List String) (before after : TypeEnv) (renamed : Subst) :
    Prop where
  after_eq : after = { before with nextVar := before.nextVar + names.length }
  below : ∀ name ∈ names, (renamed.apply (.var name)).Below after.nextVar
  free (assignment given : String → Ty) : ∃ extended,
    Keeps before.nextVar assignment extended
      ∧ ∀ name ∈ names, (renamed.apply (.var name)).replace extended = given name

theorem renameFresh_spec (env : TypeEnv) (names : List String) :
    RenamesFresh names env (env.renameFresh names).2 (env.renameFresh names).1 := by
  induction names generalizing env with
  | nil => exact ⟨rfl, nofun, fun assignment _ => ⟨assignment, .refl _ _, nofun⟩⟩
  | cons first names ih =>
    have hrest := ih env.fresh.2
    have happly (name : String) : (env.renameFresh (first :: names)).1.apply (.var name)
        = if name = first then env.fresh.1
          else (env.fresh.2.renameFresh names).1.apply (.var name) := by
      by_cases h : name = first
      · simp [renameFresh, Subst.apply, Subst.get?, h]
      · simp [renameFresh, Subst.apply, Subst.get?, List.lookup_cons, h, beq_eq_false_iff_ne.2 h]
    have hafter : (env.renameFresh (first :: names)).2 = (env.fresh.2.renameFresh names).2 := rfl
    have hnumbers : (env.renameFresh (first :: names)).2
        = { env with nextVar := env.nextVar + (first :: names).length } := by
      rw [hafter, hrest.after_eq, fresh, List.length_cons, Nat.add_assoc, Nat.add_comm 1]
    refine ⟨hnumbers, ?_, ?_⟩
    · intro name hmem
      rw [happly]
      split
      · rw [hnumbers]
        exact .fresh (by simp)
      · rename_i hne
        exact hrest.below name ((List.mem_cons.1 hmem).resolve_left hne)
    · intro assignment given
      obtain ⟨extended, hkeeps, hgiven⟩ := hrest.free
        (Function.update assignment (freshName env.nextVar) (given first)) given
      refine ⟨extended, (Keeps.update _ _ _).trans hkeeps (Nat.le_succ _), fun name hmem => ?_⟩
      rw [happly]
      split
      · rename_i heq
        rw [heq]
        exact (hkeeps env.nextVar (Nat.lt_succ_self _)).trans (Function.update_self ..)
      · rename_i hne
        exact hgiven name ((List.mem_cons.1 hmem).resolve_left hne)

/-- An instance can become any instance. -/
theorem instantiate_determines (h : env.IsScoped) (general : Ty) :
    Determines env (env.instantiate general).2 [] (fun _ type => type.IsInstance general)
      (env.instantiate general).1 := by
  have hspec := env.renameFresh_spec general.vars
  have hvars {name : String} (hmem : name ∈ general.occurrences) : name ∈ general.vars :=
    List.mem_eraseDups.2 hmem
  have hafter : (env.instantiate general).2
      = { env with nextVar := env.nextVar + general.vars.length } := hspec.after_eq
  have hle : env.nextVar ≤ env.nextVar + general.vars.length := Nat.le_add_right _ _
  have htype : (env.instantiate general).1
      = general.replace fun name => (env.renameFresh general.vars).1.apply (.var name) :=
    Subst.apply_eq_replace _ _
  refine ⟨?_, ?_, ?_, ?_, ?_, ?_, ?_⟩
  · rw [hafter]
    exact h.numbers hle _
  · rw [htype]
    intro name hmem
    obtain ⟨other, hother, hmem⟩ := Ty.mem_occurrences_replace.1 hmem
    exact hspec.below other (hvars hother) name hmem
  · rw [hafter]
    exact hle
  · rw [hafter]
    exact (List.append_nil _).symm
  · rw [hafter]
    exact id
  · exact fun _ _ => (env.instantiate_spec general).2.replace _
  · rintro assignment varTypes given hagrees ⟨f, rfl⟩
    obtain ⟨extended, hkeeps, hfree⟩ := hspec.free assignment f
    refine ⟨extended, hkeeps, solves_nil _, ?_, ?_⟩
    · rw [hafter]
      exact h.agrees hagrees hkeeps
    · rw [htype, Ty.replace_replace]
      exact Ty.replace_congr fun name hmem => hfree name (hvars hmem)

/-! ## Leaves -/

theorem occurrences_builtinType? {name : String} {type : Ty} (h : builtinType? name = some type) :
    type.occurrences = [] := by
  unfold builtinType? at h
  split at h
  all_goals cases h
  all_goals rfl

theorem occurrences_schemeType? {name : String} {scheme : Ty → Ty}
    (h : schemeType? name = some scheme) (type : Ty) :
    (scheme type).occurrences ⊆ type.occurrences := by
  unfold schemeType? at h
  split at h
  all_goals cases h
  all_goals simp [Ty.occurrences, Ty.unit]

/-- The type of a global name that is not built in can become exactly the types it has. -/
theorem globalLeaf_determines (h : env.IsScoped) {var : TermVar} (hglobal : var.scope = none)
    (hbuiltin : builtinType? var.name = none) :
    Determines env (env.globalLeaf var).2 [] (var.HasType env.signature?)
      (env.globalLeaf var).1 := by
  unfold globalLeaf TermVar.HasType
  simp only [hglobal, hbuiltin]
  cases hscheme : schemeType? var.name with
  | some scheme =>
    have hfresh := fresh_determines h
    refine ⟨hfresh.isScoped, ?_, hfresh.nextVar_le, hfresh.constraints_eq, hfresh.varTypes, ?_, ?_⟩
    · exact fun name hmem => hfresh.below name (occurrences_schemeType? hscheme _ hmem)
    · exact fun _ _ => ⟨_, replace_schemeType? hscheme _ _⟩
    · rintro assignment varTypes given hagrees ⟨parameter, rfl⟩
      obtain ⟨extended, hkeeps, hsolves, hafter, htype⟩ := hfresh.complete hagrees trivial
      refine ⟨extended, hkeeps, hsolves, hafter, ?_⟩
      rw [replace_schemeType? hscheme, htype]
  | none =>
    cases env.signature? var.name with
    | some general => exact instantiate_determines h general
    | none => exact variableType_determines h var

/-- The type of a name can become exactly the types that the name has. -/
theorem leaf_determines (h : env.IsScoped) (var : TermVar) :
    Determines env (env.leaf var).2 [] (var.HasType env.signature?) (env.leaf var).1 := by
  unfold leaf
  cases hscope : var.scope with
  | some scope =>
    have hjudgement : var.HasType env.signature? = fun varTypes type => type = varTypes var := by
      unfold TermVar.HasType
      rw [hscope]
    rw [hjudgement]
    exact variableType_determines h var
  | none =>
    cases hbuiltin : builtinType? var.name with
    | none => exact globalLeaf_determines h hscope hbuiltin
    | some type =>
      have hjudgement : var.HasType env.signature? = fun _ given => given = type := by
        unfold TermVar.HasType
        simp only [hscope, hbuiltin]
      rw [hjudgement]
      exact closed_determines h (occurrences_builtinType? hbuiltin)

end TypeEnv

end WhileLang

import WhileLang.Proofs.Term.FreshVariables

/-!
# Exactness of inference

The walk over a term without definitions always ends with a type, and the equations it demands allow
the types of the term, no others and all of them.

Main definitions:

- Predicate {lit}`Term.IsOver`: a term without definitions, and the names in it.
- Relation {lit}`Both`: the judgement of two types, told of the arrow between them.
- Structure {lit}`Inferred`: what a walk over a term without definitions ends with.

Main results:

- Theorems {lit}`TypeEnv.Determines.both` and {lit}`TypeEnv.Determines.constrain`: what was added in
  two steps, and by an equation.
- Theorem {lit}`Term.infer_exact`: the walk determines the types of the term.
-/

namespace WhileLang

namespace TypeEnv

/-! ## Combining judgements -/

/-- Two judgements, told of the arrow from the type of the first one to that of the second. -/
def Both (First Second : (TermVar → Ty) → Ty → Prop) (varTypes : TermVar → Ty) : Ty → Prop
  | .arrow first second => First varTypes first ∧ Second varTypes second
  | .var _ | .con _ => False

namespace Determines

variable {before middle after : TypeEnv} {constraints constraints' : List Constraint}
  {First Second Judgement : (TermVar → Ty) → Ty → Prop} {type other : Ty}

/-- Only equations, types of variables and numbers of type variables matter. -/
theorem congr (h : Determines before middle constraints Judgement type)
    (hconstraints : after.constraints = middle.constraints)
    (hvarTypes : after.varTypes = middle.varTypes) (hnextVar : after.nextVar = middle.nextVar) :
    Determines before after constraints Judgement type := by
  have hagrees (assignment : String → Ty) (varTypes : TermVar → Ty) :
      after.Agrees assignment varTypes ↔ middle.Agrees assignment varTypes := by
    unfold Agrees
    rw [hvarTypes]
  refine ⟨⟨?_, ?_, ?_⟩, ?_, ?_, ?_, ?_, ?_, ?_⟩
  · rw [hvarTypes, hnextVar]
    exact h.isScoped.fresh
  · rw [hvarTypes]
    exact h.isScoped.distinct
  · rw [hconstraints, hnextVar]
    exact h.isScoped.constraints
  · rw [hnextVar]
    exact h.below
  · rw [hnextVar]
    exact h.nextVar_le
  · rw [hconstraints]
    exact h.constraints_eq
  · rw [hvarTypes]
    exact h.varTypes
  · exact fun hsolves hafter => h.sound hsolves ((hagrees _ _).1 hafter)
  · intro assignment varTypes given hbefore hjudged
    obtain ⟨extended, hkeeps, hsolves, hafter, htype⟩ := h.complete hbefore hjudged
    exact ⟨extended, hkeeps, hsolves, (hagrees _ _).2 hafter, htype⟩

/-- What was added in two steps determines both types. -/
theorem both (h : Determines before middle constraints First type)
    (h' : Determines middle after constraints' Second other) :
    Determines before after (constraints ++ constraints') (Both First Second)
      (.arrow type other) where
  isScoped := h'.isScoped
  below := .arrow (h.below.mono h'.nextVar_le) h'.below
  nextVar_le := h.nextVar_le.trans h'.nextVar_le
  constraints_eq := by rw [h'.constraints_eq, h.constraints_eq, List.append_assoc]
  varTypes hlookup := h'.varTypes (h.varTypes hlookup)
  sound := by
    intro assignment varTypes hsolves hagrees
    obtain ⟨hfirst, hsecond⟩ := solves_append.1 hsolves
    exact ⟨h.sound hfirst (h'.agrees hagrees), h'.sound hsecond hagrees⟩
  complete := by
    intro assignment varTypes given hagrees hjudged
    cases given with
    | var | con => exact hjudged.elim
    | arrow domain codomain =>
      obtain ⟨hfirst, hsecond⟩ := hjudged
      obtain ⟨extended, hkeeps, hsolves, hmiddle, rfl⟩ := h.complete hagrees hfirst
      obtain ⟨final, hkeeps', hsolves', hafter, rfl⟩ := h'.complete hmiddle hsecond
      -- The second step leaves alone what the first one has used.
      refine ⟨final, hkeeps.trans hkeeps' h.nextVar_le, solves_append.2 ⟨?_, hsolves'⟩, hafter, ?_⟩
      · exact h.isScoped.solves h.constraints_subset hsolves hkeeps'
      · rw [Ty.replace, h.below.replace_eq hkeeps']

/-- An equation turns one judgement into another one. -/
theorem constrain (h : Determines before after constraints First other) {left right : Ty}
    (hleft : left.Below after.nextVar) (hright : right.Below after.nextVar)
    (htype : type.Below after.nextVar)
    (hsound : ∀ {assignment : String → Ty} {varTypes : TermVar → Ty},
      First varTypes (other.replace assignment) →
        left.replace assignment = right.replace assignment →
          Judgement varTypes (type.replace assignment))
    (hcomplete : ∀ {varTypes : TermVar → Ty} {given : Ty}, Judgement varTypes given →
      ∃ found, First varTypes found ∧ ∀ assignment, other.replace assignment = found →
        left.replace assignment = right.replace assignment ∧ type.replace assignment = given) :
    Determines before (after.constrain left right) (constraints ++ [(left, right)]) Judgement
      type where
  isScoped := h.isScoped.constrain hleft hright
  below := htype
  nextVar_le := h.nextVar_le
  constraints_eq := by simp [TypeEnv.constrain, h.constraints_eq]
  varTypes := h.varTypes
  sound := by
    intro assignment varTypes hsolves hagrees
    obtain ⟨hparts, hequation⟩ := solves_append.1 hsolves
    exact hsound (h.sound hparts hagrees) (solves_cons.1 hequation).1
  complete := by
    intro assignment varTypes given hagrees hjudged
    obtain ⟨found, hfirst, hequal⟩ := hcomplete hjudged
    obtain ⟨extended, hkeeps, hsolves, hafter, hfound⟩ := h.complete hagrees hfirst
    obtain ⟨hequation, hgiven⟩ := hequal extended hfound
    exact ⟨extended, hkeeps, solves_append.2 ⟨hsolves, solves_cons.2 ⟨hequation, solves_nil _⟩⟩,
      hafter, hgiven⟩

/-- A node has a type variable of its own, and demands one equation after its parts. -/
theorem node {start : Inference} {parts : TypeEnv} {term : Term}
    (h : Determines start.within.env parts constraints First other) (hscoped : start.env.IsScoped)
    {left right : Ty} (hleft : left.Below parts.nextVar) (hright : right.Below parts.nextVar)
    (hsound : ∀ {assignment : String → Ty} {varTypes : TermVar → Ty},
      First varTypes (other.replace assignment) →
        left.replace assignment = right.replace assignment →
          Judgement varTypes (start.nodeType.replace assignment))
    (hcomplete : ∀ {varTypes : TermVar → Ty} {given : Ty}, Judgement varTypes given →
      ∃ found, First varTypes found ∧ ∀ assignment, start.nodeType.replace assignment = given →
        other.replace assignment = found →
          left.replace assignment = right.replace assignment) {inside : Inference}
    (hinside : inside.env = parts.constrain left right) :
    Determines start.env (start.close term inside).env (constraints ++ [(left, right)]) Judgement
      start.nodeType := by
  have hfresh : Determines start.env start.within.env [] (fun _ _ => True) start.nodeType :=
    (fresh_determines hscoped).congr rfl rfl rfl
  have hnode := (hfresh.both h).constrain hleft hright (hfresh.below.mono h.nextVar_le)
    (fun hjudged => hsound hjudged.2) fun {varTypes given} hjudged => by
      obtain ⟨found, hfound, hequal⟩ := hcomplete hjudged
      refine ⟨.arrow given found, ⟨trivial, hfound⟩, fun assignment heq => ?_⟩
      obtain ⟨hgiven, hother⟩ := Ty.arrow.inj heq
      exact ⟨hequal assignment hgiven hother, hgiven⟩
  refine hnode.congr ?_ ?_ ?_
  all_goals
    simp only [Inference.close, Inference.withEnv, hinside]
    rfl

end Determines

/-- The row of a parameter does not matter for its type. -/
theorem recordParam_determines {env : TypeEnv} (h : env.IsScoped) (param : TermVar) :
    Determines env (env.recordParam param).2 [] (fun varTypes type => type = varTypes param)
      (env.recordParam param).1 :=
  (variableType_determines h param).congr rfl rfl rfl

end TypeEnv

/-! ## Terms without definitions -/

/-- A term has no definitions, and its global names are built in or among the given ones. -/
def Term.IsOver (names : List String) : Term → Prop
  | .var leaf => leaf.scope = none → builtinType? leaf.name = none → schemeType? leaf.name = none →
    leaf.name ∈ names
  | .literal _ => True
  | .app function argument => function.IsOver names ∧ argument.IsOver names
  | .abs _ body => body.IsOver names
  | .letIn .. => False

/-- What a walk over a term without definitions ends with. -/
structure Inferred (term : Term) (before after : Inference) : Prop where
  infer_eq : term.infer before = (.ok before.nodeType, after)
  reports : after.reports = before.reports
  signatures : after.env.signatures = before.env.signatures
  last : after.env.subterms.toList.getLast? = some (before.row term)
  determines : ∃ constraints, TypeEnv.Determines before.env after.env constraints
    (term.HasType before.env.signature?) before.nodeType

/-- A node is left with its own row. -/
theorem Inference.getLast?_close (before inside : Inference) (term : Term) :
    (before.close term inside).env.subterms.toList.getLast? = some (before.row term) := by
  rw [subterms_close, List.getLast?_concat]

theorem TypeEnv.IsScoped.within {before : Inference} (h : before.env.IsScoped) :
    before.within.env.IsScoped :=
  h.numbers (Nat.le_succ _) _

theorem TypeEnv.Determines.nodeType_below {before : Inference} {parts : TypeEnv}
    {constraints : List Constraint} {Judgement : (TermVar → Ty) → Ty → Prop} {type : Ty}
    (h : Determines before.within.env parts constraints Judgement type) :
    before.nodeType.Below parts.nextVar :=
  .fresh h.nextVar_le

/-- The walk over a term without definitions determines the types of the term. -/
theorem Term.infer_exact {names : List String} {term : Term} (h : term.IsOver names)
    {before : Inference} (hscoped : before.env.IsScoped) : ∃ after, Inferred term before after := by
  induction term generalizing before with
  | var leaf =>
    have hleaf := TypeEnv.leaf_determines hscoped.within leaf
    obtain ⟨hgrows, -⟩ := before.within.env.leaf_spec leaf
    refine ⟨_, rfl, rfl, hgrows.signatures, before.getLast?_close ⟨_, before.reports⟩ _, _,
      hleaf.node hscoped hleaf.nodeType_below hleaf.below ?_ ?_ rfl⟩
    · intro assignment varTypes htype heq
      exact .var (heq ▸ htype)
    · rintro varTypes given ⟨htype⟩
      exact ⟨given, htype, fun assignment hnode hfound => hnode.trans hfound.symm⟩
  | literal value =>
    have hkind : TypeEnv.Determines before.within.env before.within.env []
        (fun _ given => given = .con value.kind) (.con value.kind) :=
      TypeEnv.closed_determines hscoped.within rfl
    refine ⟨_, rfl, rfl, rfl, before.getLast?_close ⟨_, before.reports⟩ _, _,
      hkind.node hscoped hkind.nodeType_below hkind.below ?_ ?_ rfl⟩
    · intro assignment varTypes htype heq
      exact (heq.trans htype) ▸ .literal value
    · rintro varTypes given ⟨⟩
      exact ⟨_, rfl, fun assignment hnode hfound => hnode.trans hfound.symm⟩
  | app function argument ihf iha =>
    obtain ⟨middle, hf⟩ := ihf h.1 hscoped.within
    obtain ⟨fconstraints, hfunction⟩ := hf.determines
    obtain ⟨inside, ha⟩ := iha h.2 hfunction.isScoped
    obtain ⟨aconstraints, hargument⟩ := ha.determines
    have hparts := hfunction.both hargument
    have hsignatures : middle.env.signature? = before.env.signature? := by
      funext name
      exact congrArg _ hf.signatures
    refine ⟨_, infer_app hf.infer_eq ha.infer_eq, ha.reports.trans hf.reports,
      ha.signatures.trans hf.signatures, before.getLast?_close _ _, _,
      hparts.node hscoped (hfunction.below.mono hargument.nextVar_le)
        (.arrow hargument.below hparts.nodeType_below) ?_ ?_ rfl⟩
    · rintro assignment varTypes ⟨hftype, hatype⟩ heq
      rw [hsignatures] at hatype
      rw [heq] at hftype
      exact .app hftype hatype
    · intro varTypes given htype
      cases htype with
      | @app _ _ domain _ hftype hatype =>
        rw [← hsignatures] at hatype
        refine ⟨.arrow (.arrow domain given) domain, ⟨hftype, hatype⟩, ?_⟩
        intro assignment hnode hfound
        obtain ⟨hfound, hdomain⟩ := Ty.arrow.inj hfound
        rw [hfound, Ty.replace, hdomain, hnode]
  | abs param body ih =>
    have hparam := TypeEnv.recordParam_determines hscoped.within param
    have hparamScoped : (before.withParam param).env.IsScoped := hparam.isScoped
    obtain ⟨inside, hb⟩ := ih h hparamScoped
    obtain ⟨constraints, hbody⟩ := hb.determines
    have hparts := hparam.both hbody
    obtain ⟨row, hgrows, -⟩ := before.within.env.recordParam_spec param
    have hsignatures : (before.withParam param).env.signature? = before.env.signature? :=
      hgrows.signature?
    refine ⟨_, infer_abs hb.infer_eq, hb.reports, hb.signatures.trans hgrows.signatures,
      before.getLast?_close _ _, _,
      hparts.node hscoped hparts.nodeType_below hparts.below ?_ ?_ rfl⟩
    · rintro assignment varTypes ⟨hvar, htype⟩ heq
      rw [hsignatures] at htype
      rw [heq, Ty.replace, hvar]
      exact .abs htype
    · intro varTypes given htype
      cases htype with
      | abs htype =>
        rw [← hsignatures] at htype
        refine ⟨.arrow (varTypes param) _, ⟨rfl, htype⟩, fun assignment hnode hfound => ?_⟩
        exact hnode.trans hfound.symm
  | letIn => exact h.elim

end WhileLang

import WhileLang.Proofs.Running.Nesting
import WhileLang.Proofs.Term.Resolution
import WhileLang.Proofs.Typing.InferredTypes

/-!
# Types of nested chains

However chains are nested, their statements have to be of the type of statements.  So functions that
differ in the nesting of chains only have terms of the same types, although the terms differ, and
the types that are inferred for them are the same up to a renaming of variables.

Main definitions:

- Relation {lit}`FunctionTypes.IsVariant`: the reports of a function are the same up to a renaming.
- Relation {lit}`TypesAlike`: results of inference that agree up to renamings.

Main results:

- Theorem {lit}`Term.sameTypes_chain`: chains of terms have the same types however they are nested.
- Theorem {lit}`FunctionDef.toTerm_leftNested`: functions keep their types when chains are nested to
  the left.
- Theorem {lit}`Program.nesting_unobservable`: programs that differ in the nesting of chains run and
  are typed alike.
-/

namespace WhileLang

/-! ## Terms of chains -/

/-- Chains of terms have the same types however they are nested. -/
theorem Term.sameTypes_chain (first second third : Term) :
    (binary ";" first (.binary ";" second third)).SameTypes
      (.binary ";" (.binary ";" first second) third) := by
  intro known varTypes type
  simp only [hasType_chain, and_assoc]

/-! ## Terms of statements and functions -/

section

variable {program : Program} {scope : String} {term : Term}

namespace Stmt

theorem toTerm_before {first second : Stmt} {left right : Term}
    (hfirst : first.toTerm program scope = .ok left)
    (hsecond : second.toTerm program scope = .ok right) :
    ∃ term, (first.before second).toTerm program scope = .ok term
      ∧ (Term.binary ";" left right).SameTypes term := by
  induction second generalizing right with
  | seq second third ih _ =>
    obtain ⟨middle, last, hmiddle, hlast, rfl⟩ := Term.binaryOf_eq_ok.1 hsecond
    obtain ⟨chained, hchained, hsame⟩ := ih hmiddle
    refine ⟨.binary ";" chained last, Term.binaryOf_eq_ok.2 ⟨_, _, hchained, hlast, rfl⟩, ?_⟩
    exact (Term.sameTypes_chain left middle last).trans (hsame.binary ";" (.refl last))
  | assign | ifThen | ifElse | loop =>
    exact ⟨_, Term.binaryOf_eq_ok.2 ⟨_, _, hfirst, hsecond, rfl⟩, .refl _⟩

/-- A statement keeps its types when its chains are nested to the left. -/
theorem toTerm_leftNested {stmt : Stmt} (h : stmt.toTerm program scope = .ok term) :
    ∃ nested, stmt.leftNested.toTerm program scope = .ok nested ∧ term.SameTypes nested := by
  induction stmt generalizing term with
  | assign name value => exact ⟨term, h, .refl term⟩
  | seq first second ihf ihs =>
    obtain ⟨left, right, hleft, hright, rfl⟩ := Term.binaryOf_eq_ok.1 h
    obtain ⟨left', hleft', hsameLeft⟩ := ihf hleft
    obtain ⟨right', hright', hsameRight⟩ := ihs hright
    obtain ⟨nested, hnested, hsame⟩ := toTerm_before hleft' hright'
    exact ⟨nested, hnested, (hsameLeft.binary ";" hsameRight).trans hsame⟩
  | ifThen condition body ih | loop condition body ih =>
    obtain ⟨left, right, hleft, hright, rfl⟩ := Term.binaryOf_eq_ok.1 h
    obtain ⟨nested, hnested, hsame⟩ := ih hright
    exact ⟨_, Term.binaryOf_eq_ok.2 ⟨_, _, hleft, hnested, rfl⟩, .binary _ (.refl left) hsame⟩
  | ifElse condition body alternative ihb iha =>
    obtain ⟨judged, chosen, other, hjudged, hchosen, hother, rfl⟩ := toTerm_ifElse_eq_ok.1 h
    obtain ⟨chosen', hchosen', hsameChosen⟩ := ihb hchosen
    obtain ⟨other', hother', hsameOther⟩ := iha hother
    refine ⟨_, toTerm_ifElse_eq_ok.2 ⟨_, _, _, hjudged, hchosen', hother', rfl⟩, ?_⟩
    exact (Term.SameTypes.binary "if-else" (.refl judged) hsameChosen).app hsameOther

end Stmt

namespace FunctionDef

theorem sameTypes_abstract (function : FunctionDef) {body body' : Term}
    (h : body.SameTypes body') : (function.abstract body).SameTypes (function.abstract body') := by
  unfold abstract
  induction function.params with
  | nil => exact h
  | cons param params ih => exact ih.abs _

/-- A function keeps its types when its chains are nested to the left. -/
theorem toTerm_leftNested {function : FunctionDef} (h : function.toTerm program = .ok term) :
    ∃ nested, function.leftNested.toTerm program = .ok nested ∧ term.SameTypes nested := by
  obtain ⟨result, inner, hresult, hinner, rfl⟩ := toTerm_eq_ok.1 h
  cases hbody : function.body with
  | none =>
    have hsame : function.leftNested = function := by
      obtain ⟨name, params, body, result⟩ := function
      cases hbody
      rfl
    exact ⟨_, hsame.symm ▸ h, .refl _⟩
  | some body =>
    rw [hbody] at hinner
    obtain ⟨first, hfirst, rfl⟩ := hinner
    obtain ⟨nested, hnested, hsame⟩ := Stmt.toTerm_leftNested hfirst
    have hleft : function.leftNested.body = some body.leftNested := by
      rw [leftNested, hbody, Option.map_some]
    refine ⟨function.abstract (.binary ";" nested (.app (.global "return") result)),
      toTerm_eq_ok.2 ⟨result, _, hresult, ?_, rfl⟩, ?_⟩
    · rw [hleft]
      exact ⟨nested, hnested, rfl⟩
    · exact function.sameTypes_abstract (hsame.binary ";" (.refl _))

end FunctionDef

end

/-! ## Programs -/

namespace Program

variable {program other : Program}

/-! ### The order of functions -/

theorem visit_leftNested (program : Program) (depth : Nat) :
    program.leftNested.visit depth = program.visit depth := by
  induction depth with
  | zero => rfl
  | succ depth ih =>
    funext search name
    unfold visit
    rw [ih, function?_leftNested]
    cases program.function? name with
    | none => rfl
    | some function => simp only [Option.map_some, function.callees_leftNested]

theorem bindingOrder_leftNested (program : Program) :
    program.leftNested.bindingOrder = program.bindingOrder := by
  have hnames : program.leftNested.functions.map (·.name) = program.functions.map (·.name) :=
    List.map_map
  have hlength : program.leftNested.functions.length = program.functions.length :=
    List.length_map _
  unfold bindingOrder
  rw [hnames, hlength, visit_leftNested]

theorem bindingOrder_of_leftNested_eq (h : program.leftNested = other.leftNested) :
    program.bindingOrder = other.bindingOrder := by
  rw [← bindingOrder_leftNested, h, bindingOrder_leftNested]

/-! ### Resolution -/

theorem calls_leftNested {caller callee : String} :
    program.leftNested.Calls caller callee ↔ program.Calls caller callee := by
  simp only [Calls, function?_leftNested, Option.map_eq_some_iff]
  constructor
  · rintro ⟨_, ⟨function, hfunction, rfl⟩, hmem⟩
    exact ⟨function, hfunction, function.callees_leftNested ▸ hmem⟩
  · rintro ⟨function, hfunction, hmem⟩
    exact ⟨_, ⟨function, hfunction, rfl⟩, function.callees_leftNested.symm ▸ hmem⟩

theorem isResolved_leftNested : program.leftNested.IsResolved ↔ program.IsResolved := by
  constructor
  · rintro ⟨hmain, hcalls⟩
    refine ⟨program.defines_leftNested _ ▸ hmain, fun {caller callee} h => ?_⟩
    exact program.defines_leftNested callee ▸ hcalls (calls_leftNested.2 h)
  · rintro ⟨hmain, hcalls⟩
    refine ⟨(program.defines_leftNested _).symm ▸ hmain, fun {caller callee} h => ?_⟩
    exact (program.defines_leftNested callee).symm ▸ hcalls (calls_leftNested.1 h)

theorem toTerm_of_leftNested_eq (h : program.leftNested = other.leftNested) :
    (∃ term, program.toTerm = .ok term) ↔ ∃ term, other.toTerm = .ok term := by
  rw [exists_toTerm_iff, exists_toTerm_iff, ← isResolved_leftNested, h, isResolved_leftNested]

/-! ### Terms of functions -/

/-- The term of a function keeps its types when chains are nested to the left. -/
theorem HasTerm.leftNested {name : String} (h : program.HasTerm name) :
    (program.termOf name).SameTypes (program.leftNested.termOf name) := by
  obtain ⟨function, hfunction, hterm⟩ := h
  obtain ⟨nested, hnested, hsame⟩ := FunctionDef.toTerm_leftNested hterm
  have hfunction' : program.leftNested.function? name = some function.leftNested := by
    rw [function?_leftNested, hfunction, Option.map_some]
  rw [FunctionDef.toTerm_congr (fun name => (program.defines_leftNested name).symm)] at hnested
  rw [termOf_eq hfunction' hnested]
  exact hsame

theorem sameTypes_of_leftNested_eq (h : program.leftNested = other.leftNested) {name : String}
    (hterm : program.HasTerm name) (hterm' : other.HasTerm name) :
    (program.termOf name).SameTypes (other.termOf name) := by
  have hnested := hterm.leftNested
  rw [h] at hnested
  exact hnested.trans hterm'.leftNested.symm

/-- The functions of a program that is translated have the same types as those of the other. -/
theorem definitions_of_leftNested_eq (h : program.leftNested = other.leftNested)
    (hterm : ∃ term, program.toTerm = .ok term) :
    SameDefinitions program.termOf other.termOf (entryPoint :: program.bindingOrder) := by
  obtain ⟨term', hterm'⟩ := (toTerm_of_leftNested_eq h).1 hterm
  obtain ⟨term, hterm⟩ := hterm
  obtain ⟨-, -, hterms⟩ := toTerm_eq_defining hterm
  obtain ⟨-, -, hterms'⟩ := toTerm_eq_defining hterm'
  rw [← bindingOrder_of_leftNested_eq h] at hterms'
  exact fun name hmem => ⟨(hterms name hmem).exists_isOver,
    sameTypes_of_leftNested_eq h (hterms name hmem) (hterms' name hmem)⟩

/-! ### Typings -/

variable {general : String → Ty}

theorem IsSolvedBy.renested (h : program.leftNested = other.leftNested)
    (hterm : ∃ term, program.toTerm = .ok term) (hsolved : program.IsSolvedBy general) :
    other.IsSolvedBy general := by
  have hdefinitions := List.forall_mem_cons.1 (definitions_of_leftNested_eq h hterm)
  unfold IsSolvedBy
  rw [← bindingOrder_of_leftNested_eq h]
  exact Along.isPrincipal_congr hsolved hdefinitions.2 (.refl _)

theorem HasJointType.renested (h : program.leftNested = other.leftNested)
    (hterm : ∃ term, program.toTerm = .ok term) {type : Ty}
    (hjoint : program.HasJointType general type) : other.HasJointType general type := by
  obtain ⟨⟨⟨leaves, hover⟩, hmain⟩, hdefinitions⟩ :=
    List.forall_mem_cons.1 (definitions_of_leftNested_eq h hterm)
  obtain ⟨varTypes, hjoint⟩ := hjoint
  unfold HasJointType
  rw [← bindingOrder_of_leftNested_eq h]
  exact ⟨varTypes, hjoint.transfer hover hmain hdefinitions (.refl _) fun _ _ _ => Iff.rfl⟩

theorem sameTypings_of_leftNested_eq (h : program.leftNested = other.leftNested) :
    program.SameTypings other where
  translated := toTerm_of_leftNested_eq h
  solved hterm _ :=
    ⟨.renested h hterm, .renested h.symm ((toTerm_of_leftNested_eq h).1 hterm)⟩
  joint hterm _ _ :=
    ⟨.renested h hterm, .renested h.symm ((toTerm_of_leftNested_eq h).1 hterm)⟩

end Program

/-! ## Inferred types -/

/-- Two reports are about the same function, and have the same signature up to a renaming. -/
def FunctionTypes.IsVariant (types other : FunctionTypes) : Prop :=
  types.name = other.name ∧ types.signature.IsVariant other.signature

/-- Two results of inference are errors, or the same functions with the same signatures. -/
inductive TypesAlike :
    Except SemanticError ProgramTypes → Except SemanticError ProgramTypes → Prop where
  | accepted {types others : ProgramTypes}
      (hfunctions : List.Forall₂ FunctionTypes.IsVariant types.functions others.functions)
      (hmain : types.main.signature.IsVariant others.main.signature) :
      TypesAlike (.ok types) (.ok others)
  | rejected (error error' : SemanticError) : TypesAlike (.error error) (.error error')

namespace Program

variable {program other : Program}

/-- Reports on the same functions are variants where the principal types are. -/
theorem Infers.variants {types others : ProgramTypes} {general general' : String → Ty}
    (h : program.Infers types general) (h' : other.Infers others general')
    (horder : program.bindingOrder = other.bindingOrder)
    (hgeneral : ∀ name ∈ program.bindingOrder, (general name).IsVariant (general' name)) :
    List.Forall₂ FunctionTypes.IsVariant types.functions others.functions := by
  have hpairs : List.Forall₂
      (fun (pair pair' : String × Ty) => pair.1 = pair'.1 ∧ pair.2.IsVariant pair'.2)
      (types.functions.map fun report => (report.name, report.signature))
      (others.functions.map fun report => (report.name, report.signature)) := by
    rw [h.functions, h'.functions, ← horder, List.forall₂_map_left_iff,
      List.forall₂_map_right_iff, List.forall₂_same]
    exact fun name hmem => ⟨rfl, hgeneral name hmem⟩
  rwa [List.forall₂_map_left_iff, List.forall₂_map_right_iff] at hpairs

/--
How chains are nested cannot be observed.  Programs that differ in it only end alike under every
limit of nested calls, or do not end, and they are accepted or rejected together, with the same
functions in the same order and the same signatures up to a renaming of variables.
-/
theorem nesting_unobservable (h : program.leftNested = other.leftNested) :
    (∀ maxDepth ending, program.Ends maxDepth ending ↔ other.Ends maxDepth ending)
      ∧ TypesAlike program.inferTypes other.inferTypes := by
  refine ⟨fun maxDepth ending => ends_iff_of_leftNested_eq h, ?_⟩
  rcases (sameTypings_of_leftNested_eq h).inferTypes with
    ⟨types, others, general, general', htypes, hothers, hinfers, hinfers', hgeneral, hmain⟩
      | ⟨error, error', herror, herror'⟩
  · rw [htypes, hothers]
    exact .accepted (hinfers.variants hinfers' (bindingOrder_of_leftNested_eq h) hgeneral) hmain
  · rw [herror, herror']
    exact .rejected error error'

/-- A program that adds numbers up in a loop, with the three statements of a round chained. -/
def adding (chain : Stmt → Stmt → Stmt → Stmt) : Program where
  functions := [
    { name := "main"
      params := []
      body := some (.loop (.compare .lt (.var "n") (.int 3))
        (chain (.assign "s" (.math .add (.var "s") (.var "n"))) (.assign "last" (.var "n"))
          (.assign "n" (.math .add (.var "n") (.int 1)))))
      result := .var "s" }]

theorem nesting_unobservable_adding :
    (adding fun a b c => .seq (.seq a b) c) ≠ (adding fun a b c => .seq a (.seq b c))
      ∧ (adding fun a b c => .seq (.seq a b) c).Ends 1
          (.ok ⟨[("s", .int 3), ("last", .int 2), ("n", .int 3)], some (.int 3)⟩)
      ∧ (adding fun a b c => .seq a (.seq b c)).Ends 1
          (.ok ⟨[("s", .int 3), ("last", .int 2), ("n", .int 3)], some (.int 3)⟩)
      ∧ (adding fun a b c => .seq (.seq a b) c).inferTypes.isOk = true
      ∧ TypesAlike (adding fun a b c => .seq (.seq a b) c).inferTypes
          (adding fun a b c => .seq a (.seq b c)).inferTypes := by
  have hsame : (adding fun a b c => .seq (.seq a b) c).leftNested
      = (adding fun a b c => .seq a (.seq b c)).leftNested := by decide +kernel
  obtain ⟨hends, htypes⟩ := nesting_unobservable hsame
  have hleft : (adding fun a b c => .seq (.seq a b) c).Ends 1
      (.ok ⟨[("s", .int 3), ("last", .int 2), ("n", .int 3)], some (.int 3)⟩) :=
    ⟨40, by decide +kernel⟩
  exact ⟨by decide +kernel, hleft, (hends _ _).1 hleft, by decide +kernel, htypes⟩

end Program

end WhileLang

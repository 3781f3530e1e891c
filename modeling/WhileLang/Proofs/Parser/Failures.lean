import Mathlib.Data.List.Induction
import WhileLang.Parser

/-!
# The furthest failure

What is left of a list of failures that are recorded one after another: one failure at the greatest
index, with the expectations of all failures there.  A failure that was recorded is absorbed from
then on, so that recording it again changes nothing.

Main definitions:

- Type {lit}`Failure`: a failure apart from the tokens that its report describes.
- Function {lit}`furthestOf`: the record after a list of failures.
- Predicates {lit}`Absorbs` and {lit}`IsFurthest`.

Main results:

- Theorem {lit}`furthestOf_eq_of_absorbs`: failures that are absorbed leave the record as it is.
- Theorem {lit}`isFurthest_furthestOf`: the record is the furthest of what was recorded.
-/

namespace WhileLang

/-! ## Failures and their reports -/

/-- A failure at an index, which says nothing about the token there. -/
structure Failure where
  index : Nat
  text : String
  expected : List String

/-- A failure among tokens is reported with the token at its index. -/
def Failure.report (tokens : Array Token) (failure : Failure) : ParseError where
  text := failure.text
  expected := failure.expected
  found := some (tokens[failure.index]?.elim "end of input" (·.lexeme.describe))
  position := tokens[failure.index]?.map (·.span)
  index := failure.index

namespace ParseState

variable {ρ : Type} {Stored : ρ → Type}

/-- Failures at the cursor are reports about it. -/
theorem errorHere_eq_report (state : ParseState ρ Stored) (text : String) :
    state.errorHere text = Failure.report state.tokens ⟨state.index, text, []⟩ := by
  unfold errorHere peek? Failure.report
  cases state.tokens[state.index]? <;> rfl

/-! ## Expectations -/

theorem mem_mergeExpected {known additional : List String} {item : String} :
    item ∈ mergeExpected known additional ↔ item ∈ known ∨ item ∈ additional := by
  unfold mergeExpected
  induction additional generalizing known with
  | nil => simp
  | cons other additional ih =>
    rw [List.foldl_cons, ih]
    split
    · next hknown =>
      rw [List.contains_iff_mem] at hknown
      rw [List.mem_cons]
      constructor
      · exact Or.imp_right .inr
      · rintro (h | rfl | h)
        · exact .inl h
        · exact .inl hknown
        · exact .inr h
    · simp only [List.mem_append, List.mem_cons, List.not_mem_nil, or_false, or_assoc]

/-- Expectations that are known already are not repeated. -/
theorem mergeExpected_eq_self {known additional : List String} (h : additional ⊆ known) :
    mergeExpected known additional = known := by
  unfold mergeExpected
  induction additional with
  | nil => rfl
  | cons item additional ih =>
    rw [List.cons_subset] at h
    rw [List.foldl_cons, if_pos (List.contains_iff_mem.2 h.1)]
    exact ih h.2

theorem nodup_mergeExpected {known : List String} (h : known.Nodup) (additional : List String) :
    (mergeExpected known additional).Nodup := by
  unfold mergeExpected
  induction additional generalizing known with
  | nil => exact h
  | cons item additional ih =>
    rw [List.foldl_cons]
    split
    · exact ih h
    · next hknown =>
      rw [List.contains_iff_mem] at hknown
      refine ih (List.nodup_append.2 ⟨h, by simp, fun other hother _ hitem heq => hknown ?_⟩)
      rwa [← List.mem_singleton.1 hitem, ← heq]

/-! ## The further of two failures -/

section

variable {furthest error : ParseError}

theorem further_of_lt (h : error.index < furthest.index) :
    further (some furthest) error = furthest :=
  if_pos h

theorem further_of_eq (h : error.index = furthest.index) :
    further (some furthest) error
      = { furthest with expected := mergeExpected furthest.expected error.expected } := by
  rw [further, if_neg (Nat.not_lt.2 (Nat.le_of_eq h.symm)), if_pos h.symm]

theorem further_of_gt (h : furthest.index < error.index) :
    further (some furthest) error = error := by
  rw [further, if_neg (Nat.not_lt.2 (Nat.le_of_lt h)), if_neg (Nat.ne_of_lt h)]

end

end ParseState

/-! ## What is absorbed -/

open ParseState (further mergeExpected further_of_lt further_of_eq further_of_gt)

/-- The record got further than a failure, or as far with all that was expected. -/
def Absorbs (known : Option ParseError) (error : ParseError) : Prop :=
  ∃ furthest, known = some furthest ∧
    (error.index < furthest.index ∨
      error.index = furthest.index ∧ error.expected ⊆ furthest.expected)

/-- A failure that is absorbed leaves the record as it is. -/
theorem Absorbs.further_eq {known : Option ParseError} {error : ParseError}
    (h : Absorbs known error) : some (further known error) = known := by
  obtain ⟨furthest, rfl, hlt | ⟨heq, hsubset⟩⟩ := h
  · rw [further_of_lt hlt]
  · rw [further_of_eq heq, ParseState.mergeExpected_eq_self hsubset]

/-- A failure that was recorded is absorbed. -/
theorem absorbs_further (known : Option ParseError) (error : ParseError) :
    Absorbs (some (further known error)) error := by
  refine ⟨_, rfl, ?_⟩
  cases known with
  | none => exact .inr ⟨rfl, fun _ => id⟩
  | some furthest =>
    rcases Nat.lt_trichotomy error.index furthest.index with hlt | heq | hgt
    · rw [further_of_lt hlt]
      exact .inl hlt
    · rw [further_of_eq heq]
      exact .inr ⟨heq, fun _ hitem => ParseState.mem_mergeExpected.2 (.inr hitem)⟩
    · rw [further_of_gt hgt]
      exact .inr ⟨rfl, fun _ => id⟩

/-- What is absorbed stays so when more is recorded. -/
theorem Absorbs.further {known : Option ParseError} {error : ParseError} (h : Absorbs known error)
    (other : ParseError) : Absorbs (some (further known other)) error := by
  obtain ⟨furthest, rfl, hcovers⟩ := h
  refine ⟨_, rfl, ?_⟩
  rcases Nat.lt_trichotomy other.index furthest.index with hlt | heq | hgt
  · rw [further_of_lt hlt]
    exact hcovers
  · rw [further_of_eq heq]
    exact hcovers.imp_right fun ⟨hsame, hsubset⟩ =>
      ⟨hsame, fun _ hitem => ParseState.mem_mergeExpected.2 (.inl (hsubset hitem))⟩
  · rw [further_of_gt hgt]
    exact .inl (by omega)

/-! ## The record after several failures -/

/-- The record after failures that are recorded from the left. -/
def furthestOf (known : Option ParseError) (errors : List ParseError) : Option ParseError :=
  errors.foldl (fun known error => some (further known error)) known

theorem furthestOf_cons (known : Option ParseError) (error : ParseError)
    (errors : List ParseError) :
    furthestOf known (error :: errors) = furthestOf (some (further known error)) errors :=
  rfl

theorem furthestOf_append (known : Option ParseError) (first second : List ParseError) :
    furthestOf known (first ++ second) = furthestOf (furthestOf known first) second :=
  List.foldl_append

theorem Absorbs.furthestOf {known : Option ParseError} {error : ParseError}
    (h : Absorbs known error) (errors : List ParseError) :
    Absorbs (furthestOf known errors) error := by
  induction errors generalizing known with
  | nil => exact h
  | cons other errors ih => exact ih (h.further other)

/-- All failures that were recorded are absorbed. -/
theorem absorbs_furthestOf (known : Option ParseError) {errors : List ParseError}
    {error : ParseError} (h : error ∈ errors) : Absorbs (furthestOf known errors) error := by
  induction errors generalizing known with
  | nil => cases h
  | cons other errors ih =>
    rw [furthestOf_cons]
    cases h with
    | head => exact (absorbs_further known error).furthestOf errors
    | tail _ h => exact ih _ h

/-- Failures that are absorbed may be recorded again. -/
theorem furthestOf_eq_of_absorbs {known : Option ParseError} {errors : List ParseError}
    (h : ∀ error ∈ errors, Absorbs known error) : furthestOf known errors = known := by
  induction errors with
  | nil => rfl
  | cons error errors ih =>
    rw [furthestOf_cons, (h error List.mem_cons_self).further_eq]
    exact ih fun other hother => h other (List.mem_cons_of_mem _ hother)

/-! ## The furthest of some failures -/

/-- A failure stands for the furthest of some failures. -/
structure IsFurthest (errors : List ParseError) (furthest : ParseError) : Prop where
  absorbs : ∀ error ∈ errors, Absorbs (some furthest) error
  /-- It is one of them, apart from its expectations. -/
  origin : ∃ error ∈ errors, furthest = { error with expected := furthest.expected }
  /-- Its expectations are those of the failures at its index. -/
  expected : ∀ item ∈ furthest.expected,
    ∃ error ∈ errors, error.index = furthest.index ∧ item ∈ error.expected
  nodup : (∀ error ∈ errors, error.expected.Nodup) → furthest.expected.Nodup

theorem isFurthest_singleton (error : ParseError) : IsFurthest [error] error where
  absorbs _ hmem := by
    rw [List.mem_singleton.1 hmem]
    exact ⟨error, rfl, .inr ⟨rfl, fun _ => id⟩⟩
  origin := ⟨error, List.mem_singleton_self error, rfl⟩
  expected _ hitem := ⟨error, List.mem_singleton_self error, rfl, hitem⟩
  nodup h := h error (List.mem_singleton_self error)

/-- One more failure that is recorded. -/
theorem IsFurthest.further {errors : List ParseError} {furthest : ParseError}
    (h : IsFurthest errors furthest) (error : ParseError) :
    IsFurthest (errors ++ [error]) (further (some furthest) error) := by
  have hlast : error ∈ errors ++ [error] :=
    List.mem_append_right _ (List.mem_singleton_self error)
  have hbefore : ∀ {other}, other ∈ errors → other ∈ errors ++ [error] := List.mem_append_left _
  have habsorbs : ∀ other ∈ errors ++ [error],
      Absorbs (some (ParseState.further (some furthest) error)) other := by
    intro other hmem
    rcases List.mem_append.1 hmem with hmem | hmem
    · exact (h.absorbs other hmem).further error
    · rw [List.mem_singleton.1 hmem]
      exact absorbs_further _ error
  obtain ⟨first, hfirst, hsame⟩ := h.origin
  have hknown : ∀ item ∈ furthest.expected,
      ∃ other ∈ errors ++ [error], other.index = furthest.index ∧ item ∈ other.expected := by
    intro item hitem
    obtain ⟨other, hother, hexpected⟩ := h.expected item hitem
    exact ⟨other, hbefore hother, hexpected⟩
  have hnodup : (∀ other ∈ errors ++ [error], other.expected.Nodup) → furthest.expected.Nodup :=
    fun hall => h.nodup fun other hother => hall other (hbefore hother)
  rcases Nat.lt_trichotomy error.index furthest.index with hlt | heq | hgt
  · rw [further_of_lt hlt] at habsorbs ⊢
    exact ⟨habsorbs, ⟨first, hbefore hfirst, hsame⟩, hknown, hnodup⟩
  · rw [further_of_eq heq] at habsorbs ⊢
    refine ⟨habsorbs, ⟨first, hbefore hfirst, ?_⟩, fun item hitem => ?_, fun hall => ?_⟩
    · rw [hsame]
    · rcases ParseState.mem_mergeExpected.1 hitem with hitem | hitem
      · exact hknown item hitem
      · exact ⟨error, hlast, heq, hitem⟩
    · exact ParseState.nodup_mergeExpected (hnodup hall) _
  · rw [further_of_gt hgt] at habsorbs ⊢
    exact ⟨habsorbs, ⟨error, hlast, rfl⟩, fun item hitem => ⟨error, hlast, rfl, hitem⟩,
      fun hall => hall error hlast⟩

/-- Where any failure was recorded, the record is the furthest of them. -/
theorem isFurthest_furthestOf {errors : List ParseError} (h : errors ≠ []) :
    ∃ furthest, furthestOf none errors = some furthest ∧ IsFurthest errors furthest := by
  induction errors using List.reverseRecOn with
  | nil => exact absurd rfl h
  | append_singleton errors error ih =>
    rw [furthestOf_append]
    by_cases hnil : errors = []
    · subst hnil
      exact ⟨error, rfl, isFurthest_singleton error⟩
    · obtain ⟨furthest, heq, hfurthest⟩ := ih hnil
      rw [heq]
      exact ⟨_, rfl, hfurthest.further error⟩

end WhileLang

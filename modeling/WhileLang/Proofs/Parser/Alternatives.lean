import Mathlib.Data.List.MinMax
import Mathlib.Data.Prod.Lex
import WhileLang.Parser

/-!
# Alternatives

A choice runs both of its sides from one place, the right one with everything that the left one has
left behind but its cursor.  Nested choices therefore run all their alternatives in turn from that
place, and keep the same one of them however they are nested: of those that succeed the one that
consumed most, and if none does the failure of greatest index, each time the leftmost.

Main definitions:

- Type {lit}`Attempt` and function {lit}`Attempt.merit`: what an alternative came to, and how far
  it got.
- Function {lit}`Parser.attempts`: the attempts of alternatives from one place.
- Predicate {lit}`Parser.Chooses`: a parser keeps the best attempt of some alternatives.

Main results:

- Theorem {lit}`Parser.or_eq`: a choice compares its sides by merit.
- Theorem {lit}`Parser.KeepsBest.or`: a choice keeps the best of the alternatives within it.
- Theorem {lit}`Parser.or_associative`: choice is associative.
-/

namespace WhileLang

variable {ρ : Type} {Stored : ρ → Type} {α : Type}

/-! ## The first best of two lists -/

/-- The first best item of two lists is that of the left one, unless the right one has a better. -/
theorem argmax_append {τ β : Type} [LinearOrder β] {f : τ → β} {left right : List τ} {a b : τ}
    (hleft : left.argmax f = some a) (hright : right.argmax f = some b) :
    (left ++ right).argmax f = some (if f a < f b then b else a) := by
  induction left generalizing a with
  | nil => cases hleft
  | cons first left ih =>
    rw [List.argmax_cons] at hleft
    rw [List.cons_append, List.argmax_cons]
    cases hrest : left.argmax f with
    | none =>
      obtain rfl := List.argmax_eq_none.1 hrest
      rw [hrest] at hleft
      obtain rfl : first = a := Option.some.inj hleft
      rw [List.nil_append, hright, apply_ite some]
    | some c =>
      rw [hrest] at hleft
      rw [ih hrest]
      by_cases hfirst : f first < f c
      · obtain rfl : c = a := by simpa [hfirst] using hleft
        by_cases hlt : f c < f b
        · simp [hlt, hfirst.trans hlt]
        · simp [hlt, hfirst]
      · obtain rfl : first = a := by simpa [hfirst] using hleft
        by_cases hlt : f c < f b
        · simp [hlt, apply_ite some]
        · have hle : f b ≤ f first := (not_lt.1 hlt).trans (not_lt.1 hfirst)
          simp [hlt, hfirst, hle.not_gt]

/-! ## Attempts -/

/-- What running an alternative came to: a value and where it ends, or a failure. -/
inductive Attempt (α : Type) where
  | success (value : α) (stop : Nat)
  | failure (error : ParseError)

namespace Attempt

/-- How far an attempt got: successes by where they end, and below them failures by their index. -/
def merit : Attempt α → Bool ×ₗ Nat
  | success _ stop => toLex (true, stop)
  | failure error => toLex (false, error.index)

@[simp]
theorem merit_success_lt {value other : α} {stop stop' : Nat} :
    (success value stop).merit < (success other stop').merit ↔ stop < stop' := by
  simp [merit, Prod.Lex.toLex_lt_toLex]

@[simp]
theorem merit_failure_lt {error other : ParseError} :
    (failure error : Attempt α).merit < (failure other : Attempt α).merit
      ↔ error.index < other.index := by
  simp [merit, Prod.Lex.toLex_lt_toLex]

theorem failure_lt_success (error : ParseError) (value : α) (stop : Nat) :
    (failure error : Attempt α).merit < (success value stop).merit := by
  simp [merit, Prod.Lex.toLex_lt_toLex]

/-- The attempt that a run was.  Where a run that fails leaves the cursor is no part of it. -/
def ofRun (run : Except ParseError α × ParseState ρ Stored) : Attempt α :=
  match run.1 with
  | .ok value => success value run.2.index
  | .error error => failure error

/-- Keep an attempt: the cursor is at the end of a success, or back at the start after a failure. -/
def keep (attempt : Attempt α) (start : Nat) (state : ParseState ρ Stored) :
    Except ParseError α × ParseState ρ Stored :=
  match attempt with
  | success value stop => (.ok value, state.restore stop)
  | failure error => (.error error, state.restore start)

theorem ofRun_keep (attempt : Attempt α) (start : Nat) (state : ParseState ρ Stored) :
    ofRun (attempt.keep start state) = attempt := by
  cases attempt with
  | success value stop => rfl
  | failure error => rfl

/-- Only the cursor is moved, and where it was before does not matter. -/
theorem restore_keep (attempt : Attempt α) (start place : Nat) (state : ParseState ρ Stored) :
    (attempt.keep start state).2.restore place = state.restore place := by
  cases attempt with
  | success value stop => rfl
  | failure error => rfl

theorem keep_restore (attempt : Attempt α) (start place : Nat) (state : ParseState ρ Stored) :
    attempt.keep start (state.restore place) = attempt.keep start state := by
  cases attempt with
  | success value stop => rfl
  | failure error => rfl

end Attempt

namespace Parser

/--
Run alternatives in turn.  After each of them the cursor goes back to where the first one started;
all else that it has changed stays for the next one.
-/
def attempts : List (Parser ρ Stored α) → ParseState ρ Stored →
    List (Attempt α) × ParseState ρ Stored
  | [], state => ([], state)
  | parser :: parsers, state =>
    let run := parser state
    let others := attempts parsers (run.2.restore state.index)
    (.ofRun run :: others.1, others.2)

section

variable {parser other : Parser ρ Stored α} {parsers others : List (Parser ρ Stored α)}

theorem index_attempts (parsers : List (Parser ρ Stored α)) (state : ParseState ρ Stored) :
    (attempts parsers state).2.index = state.index := by
  induction parsers generalizing state with
  | nil => rfl
  | cons parser parsers ih => exact ih ((parser state).2.restore state.index)

/-- More alternatives start with what those before them have left. -/
theorem attempts_append (parsers others : List (Parser ρ Stored α)) (state : ParseState ρ Stored) :
    attempts (parsers ++ others) state
      = ((attempts parsers state).1 ++ (attempts others (attempts parsers state).2).1,
        (attempts others (attempts parsers state).2).2) := by
  induction parsers generalizing state with
  | nil => rfl
  | cons parser parsers ih =>
    rw [List.cons_append, attempts, ih]
    rfl

/-! ## Choices -/

/-- The right side of a choice is kept if it got further than the left one, and else the left. -/
theorem or_eq (left right : Parser ρ Stored α) (state : ParseState ρ Stored) :
    let leftRun := left state
    let rightRun := right (leftRun.2.restore state.index)
    left.or right state
      = (if (Attempt.ofRun leftRun).merit < (Attempt.ofRun rightRun).merit then .ofRun rightRun
          else Attempt.ofRun leftRun).keep state.index rightRun.2 := by
  unfold Parser.or
  rcases hleft : left state with ⟨result, afterLeft⟩
  rcases hright : right (afterLeft.restore state.index) with ⟨result', afterRight⟩
  simp only [hright]
  cases result with
  | ok a =>
    cases result' with
    | ok b =>
      simp only [Attempt.ofRun, Attempt.merit_success_lt]
      split
      · rfl
      · rfl
    | error f =>
      simp only [Attempt.ofRun, (Attempt.failure_lt_success f a _).not_gt, if_false]
      rfl
  | error e =>
    cases result' with
    | ok b =>
      simp only [Attempt.ofRun, Attempt.failure_lt_success, if_true]
      rfl
    | error f =>
      simp only [Attempt.ofRun, Attempt.merit_failure_lt]
      split
      · rfl
      · rfl

/--
A parser runs alternatives in turn, and is as an attempt the best of theirs.  Of attempts of one
merit the first is the best.
-/
def KeepsBest (parser : Parser ρ Stored α) (parsers : List (Parser ρ Stored α)) : Prop :=
  ∀ state, (attempts parsers state).1.argmax Attempt.merit = some (.ofRun (parser state))
    ∧ (parser state).2.restore state.index = (attempts parsers state).2

/--
A parser runs alternatives in turn and keeps the best of their attempts, of attempts of one merit
the first: its value with the cursor at its end, or its failure with the cursor back at the start.
-/
def Chooses (parser : Parser ρ Stored α) (parsers : List (Parser ρ Stored α)) : Prop :=
  ∀ state, ∃ best, (attempts parsers state).1.argmax Attempt.merit = some best
    ∧ parser state = best.keep state.index (attempts parsers state).2

theorem keepsBest_self (parser : Parser ρ Stored α) : parser.KeepsBest [parser] :=
  fun _ => ⟨rfl, rfl⟩

theorem Chooses.keepsBest (h : parser.Chooses parsers) : parser.KeepsBest parsers := by
  intro state
  obtain ⟨best, hbest, hparser⟩ := h state
  have hstart := congrArg (attempts parsers state).2.restore (index_attempts parsers state)
  rw [hparser, Attempt.ofRun_keep, Attempt.restore_keep]
  exact ⟨hbest, hstart.symm⟩

/-- A choice keeps the best of the alternatives on both of its sides. -/
theorem KeepsBest.or (h : parser.KeepsBest parsers) (h' : other.KeepsBest others) :
    (parser.or other).Chooses (parsers ++ others) := by
  intro state
  obtain ⟨hbest, hlast⟩ := h state
  obtain ⟨hbest', hlast'⟩ := h' (attempts parsers state).2
  rw [index_attempts] at hlast'
  rw [attempts_append]
  refine ⟨_, argmax_append hbest hbest', ?_⟩
  rw [or_eq, hlast, ← hlast', Attempt.keep_restore]

/-- There is only one way to choose from alternatives. -/
theorem Chooses.unique (h : parser.Chooses parsers) (h' : other.Chooses parsers) :
    parser = other := by
  funext state
  obtain ⟨best, hbest, hparser⟩ := h state
  obtain ⟨best', hbest', hother⟩ := h' state
  obtain rfl : best = best' := Option.some.inj (hbest.symm.trans hbest')
  rw [hparser, hother]

end

/--
Choice is associative: nested either way, it comes to the same result and leaves the same state.
Three alternatives run in turn from one place; the one that consumed most is kept, or the failure
of greatest index with the cursor back at that place if all of them fail, each time the leftmost.
-/
theorem or_associative (a b c : Parser ρ Stored α) :
    (a.or b).or c = a.or (b.or c) ∧ ((a.or b).or c).Chooses [a, b, c] := by
  have hleft : ((a.or b).or c).Chooses ([a, b] ++ [c]) :=
    (a.keepsBest_self.or b.keepsBest_self).keepsBest.or c.keepsBest_self
  have hright : (a.or (b.or c)).Chooses ([a] ++ [b, c]) :=
    a.keepsBest_self.or (b.keepsBest_self.or c.keepsBest_self).keepsBest
  exact ⟨hleft.unique hright, hleft⟩

end Parser

end WhileLang

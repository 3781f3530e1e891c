import Std.Data.TreeMap
import WhileLang.ParseError

/-!
# The state of a parse

A cursor over a list of tokens, together with what a parse remembers: the furthest failure, the
results of rules by the index they were started at, and the marks that were left.

Main definitions:

- Type {lit}`ParseState`, over rules {lit}`ρ` that store results of type {lit}`Stored rule`.
- Functions {lit}`ParseState.errorHere` and {lit}`ParseState.record`: failures at the cursor, and
  the furthest failure with the expectations of all failures at its index.
- Functions {lit}`ParseState.recall?` and {lit}`ParseState.store`: results of rules.
-/

namespace WhileLang

/-- What a parser reads and remembers. -/
structure ParseState (ρ : Type) (Stored : ρ → Type) where
  tokens : Array Token
  /-- The index of the next token. -/
  index : Nat := 0
  /-- The failure at the greatest index so far. -/
  furthest : Option ParseError := none
  /-- By start index and rule, the stored result and the index it ended at. -/
  memory : Std.TreeMap Nat ((rule : ρ) → Option (Stored rule × Nat)) := ∅
  /-- The marks left so far with the index they were left at, the latest first. -/
  marks : List (ρ × Nat) := []

namespace ParseState

variable {ρ : Type} {Stored : ρ → Type}

/-- The state before the first token. -/
def start (tokens : List Token) : ParseState ρ Stored where
  tokens := tokens.toArray

/-! ## The cursor -/

/-- The token under the cursor. -/
def peek? (state : ParseState ρ Stored) : Option Token :=
  state.tokens[state.index]?

/-- Whether any token is left. -/
def hasNext (state : ParseState ρ Stored) : Bool :=
  state.index < state.tokens.size

/-- Move the cursor to an index. -/
def restore (state : ParseState ρ Stored) (index : Nat) : ParseState ρ Stored :=
  { state with index }

/-- Move the cursor over one token, if there is one. -/
def advance (state : ParseState ρ Stored) : ParseState ρ Stored :=
  if state.hasNext then state.restore (state.index + 1) else state

/-- Moving the cursor to where it is changes nothing. -/
@[simp]
theorem restore_index (state : ParseState ρ Stored) : state.restore state.index = state :=
  rfl

/-- The tokens from the cursor on. -/
def remaining (state : ParseState ρ Stored) : List Token :=
  state.tokens.toList.drop state.index

/-- The texts of the tokens from the cursor on, one space between two of them. -/
def remainder (state : ParseState ρ Stored) : String :=
  " ".intercalate (state.remaining.map (·.lexeme.text))

/-! ## Failures -/

/-- A failure at the token under the cursor. -/
def errorHere (state : ParseState ρ Stored) (text : String) : ParseError :=
  match state.peek? with
  | some token =>
    { text, index := state.index, found := some token.lexeme.describe, position := some token.span }
  | none => { text, index := state.index, found := some "end of input" }

/-- Expectations followed by those of a second list that are not among them yet. -/
def mergeExpected (known additional : List String) : List String :=
  additional.foldl
    (fun merged item => if merged.contains item then merged else merged ++ [item]) known

/--
The furthest of two failures.  Of two at the same index the first is kept, and takes over the
expectations of the second.
-/
def further (known : Option ParseError) (error : ParseError) : ParseError :=
  match known with
  | none => error
  | some furthest =>
    if error.index < furthest.index then furthest
    else if furthest.index = error.index then
      { furthest with expected := mergeExpected furthest.expected error.expected }
    else error

/-- Remember a failure if none got further. -/
def record (state : ParseState ρ Stored) (error : ParseError) : ParseState ρ Stored :=
  { state with furthest := some (further state.furthest error) }

/-! ## Results of rules and marks -/

/-- The result of a rule started at the cursor, and the index it ended at. -/
def «recall?» (state : ParseState ρ Stored) (rule : ρ) : Option (Stored rule × Nat) :=
  state.memory[state.index]?.bind (· rule)

/-- Store the result of a rule that was started at an index and ended at the cursor. -/
def store [DecidableEq ρ] (state : ParseState ρ Stored) (rule : ρ) (start : Nat)
    (result : Stored rule) : ParseState ρ Stored :=
  let here := (state.memory[start]?).getD fun _ => none
  let updated := fun other =>
    if same : rule = other then some (same ▸ result, state.index) else here other
  { state with memory := state.memory.insert start updated }

/-- What was stored is recalled at the place it was stored for. -/
theorem recall?_store [DecidableEq ρ] (state : ParseState ρ Stored) (rule : ρ) (start : Nat)
    (result : Stored rule) :
    ((state.store rule start result).restore start).«recall?» rule = some (result, state.index) := by
  simp [«recall?», store, restore]

/-- Storing a result changes no other one. -/
theorem recall?_store_of_ne [DecidableEq ρ] (state : ParseState ρ Stored) {rule other : ρ}
    {start place : Nat} (result : Stored rule) (h : ¬(rule = other ∧ start = place)) :
    ((state.store rule start result).restore place).«recall?» other
      = (state.restore place).«recall?» other := by
  simp only [«recall?», store, restore, Std.TreeMap.getElem?_insert, Nat.compare_eq_eq]
  by_cases hplace : start = place
  · subst hplace
    have hrule : rule ≠ other := fun heq => h ⟨heq, rfl⟩
    cases state.memory[start]? <;> simp [hrule]
  · simp [hplace]

/-- What holds of all stored results holds of one more if it does of that one. -/
theorem forall_recall?_store [DecidableEq ρ] {P : (rule : ρ) → Nat → Stored rule → Nat → Prop}
    {state : ParseState ρ Stored} {rule : ρ} {start : Nat} {result : Stored rule}
    (hnew : P rule start result state.index)
    (h : ∀ (other : ρ) (place : Nat) (found : Stored other) (stop : Nat),
      (state.restore place).«recall?» other = some (found, stop) → P other place found stop) :
    ∀ (other : ρ) (place : Nat) (found : Stored other) (stop : Nat),
      ((state.store rule start result).restore place).«recall?» other = some (found, stop) →
        P other place found stop := by
  intro other place found stop hrecall
  by_cases hsame : rule = other ∧ start = place
  · obtain ⟨rfl, rfl⟩ := hsame
    rw [recall?_store] at hrecall
    cases hrecall
    exact hnew
  · rw [recall?_store_of_ne state result hsame] at hrecall
    exact h other place found stop hrecall

/-- Leave a mark at the cursor. -/
def mark (state : ParseState ρ Stored) (label : ρ) : ParseState ρ Stored :=
  { state with marks := (label, state.index) :: state.marks }

end ParseState

end WhileLang

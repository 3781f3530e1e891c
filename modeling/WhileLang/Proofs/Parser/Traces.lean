import WhileLang.Proofs.Parser.Choice
import WhileLang.Proofs.Parser.Failures

/-!
# Traces of parsers

What a parser does from an index on, apart from what is stored and marked: the result, where it
stops, and the failures it records.  The trace of a combinator is put together from the traces of
its parts.

Main definitions:

- Type {lit}`Trace`.
- Predicates {lit}`Trace.Describes` and {lit}`HasTrace`: a trace of one run, and of all runs from an
  index.
- Functions {lit}`Trace.or`, {lit}`Trace.optional`, {lit}`Trace.label`, {lit}`Trace.satisfy`,
  {lit}`Trace.number` and {lit}`Trace.complete`.
- Function {lit}`Trace.answer`: what is reported after a whole run.

Main results:

- Theorem {lit}`Trace.Describes.run_eq_answer`: a run reports the answer of its trace.
-/

namespace WhileLang

open Grammar (Production State)

variable {α β : Type}

/-! ## How parsers go on -/

namespace Parser

variable {parser : Production α} {state : State}

theorem andThen_of_ok {next : α → Production β} {value : α} {behind : State}
    (h : parser state = (.ok value, behind)) : parser.andThen next state = next value behind := by
  rw [andThen, h]

theorem andThen_of_error {next : α → Production β} {error : ParseError} {behind : State}
    (h : parser state = (.error error, behind)) :
    parser.andThen next state = (.error error, behind) := by
  rw [andThen, h]

theorem optional_of_ok {value : α} {behind : State} (h : parser state = (.ok value, behind)) :
    Parser.optional parser state = (.ok (some value), behind) := by
  rw [Parser.optional, h]

theorem optional_of_error {error : ParseError} {behind : State}
    (h : parser state = (.error error, behind)) :
    Parser.optional parser state = (.ok none, behind.restore state.index) := by
  rw [Parser.optional, h]

theorem label_of_ok {value : α} {behind : State} (h : parser state = (.ok value, behind))
    (name : String) : parser.label name state = (.ok value, behind) := by
  rw [Parser.label, h]

theorem label_of_error {error : ParseError} {behind : State}
    (h : parser state = (.error error, behind)) (name : String) :
    parser.label name state =
      if error.index = state.index then reject { error with expected := [name] } behind
      else (.error error, behind) := by
  rw [Parser.label, h]

section Chains

variable {item : Production α} {separator : Production (α → α → α)} {rounds : Nat} {folded : α}
  {behind : State}

/-- The rounds of a chain end where one fails. -/
theorem chainFrom_of_error {error : ParseError}
    (h : (separator.andThen fun combine => item.map (combine folded)) state
      = (.error error, behind)) :
    Parser.chainFrom item separator (rounds + 1) folded state
      = (.ok folded, behind.restore state.index) := by
  rw [Reads.chainFrom_succ, h]

/-- The rounds of a chain go on behind one that succeeds. -/
theorem chainFrom_of_ok {next : α}
    (h : (separator.andThen fun combine => item.map (combine folded)) state = (.ok next, behind)) :
    Parser.chainFrom item separator (rounds + 1) folded state
      = Parser.chainFrom item separator rounds next behind := by
  rw [Reads.chainFrom_succ, h]

end Chains

end Parser

/-! ## Traces -/

/-- What a parser does from an index on. -/
structure Trace (α : Type) where
  result : Except Failure α
  /-- The index the cursor is left at. -/
  stop : Nat
  /-- The failures that are recorded, the first one first. -/
  failures : List Failure

/-- A trace of what came out of a state. -/
structure Trace.Describes (trace : Trace α) (state : State)
    (outcome : Except ParseError α × State) : Prop where
  result : outcome.1 = trace.result.mapError (·.report state.tokens)
  tokens : outcome.2.tokens = state.tokens
  index : outcome.2.index = trace.stop
  furthest : outcome.2.furthest
    = furthestOf state.furthest (trace.failures.map (·.report state.tokens))

/-- A parser has one trace at an index, whatever was stored, recorded and marked before. -/
def HasTrace (tokens : Array Token) (index : Nat) (parser : Production α) (trace : Trace α) :
    Prop :=
  ∀ state : State, state.tokens = tokens → state.index = index →
    trace.Describes state (parser state)

namespace Trace

/-! ## Traces of combinators -/

/-- A trace behind failures that were recorded before. -/
def after (trace : Trace α) (earlier : List Failure) : Trace α :=
  { trace with failures := earlier ++ trace.failures }

/-- The trace of a value for nothing. -/
def succeed (value : α) (start : Nat) : Trace α :=
  ⟨.ok value, start, []⟩

/-- A trace that ends with a further failure. -/
def reject (trace : Trace α) (failure : Failure) (stop : Nat) : Trace β :=
  ⟨.error failure, stop, trace.failures ++ [failure]⟩

/-- The result that is chosen from two alternatives, with where it stops. -/
def choice (left right : Trace α) (start : Nat) : Except Failure α × Nat :=
  match left.result, right.result with
  | .ok a, .ok b => if left.stop < right.stop then (.ok b, right.stop) else (.ok a, left.stop)
  | .ok a, .error _ => (.ok a, left.stop)
  | .error _, .ok b => (.ok b, right.stop)
  | .error e, .error f => (.error (if e.index < f.index then f else e), start)

/-- The trace of two alternatives. -/
def or (left right : Trace α) (start : Nat) : Trace α :=
  ⟨(left.choice right start).1, (left.choice right start).2, left.failures ++ right.failures⟩

/-- The trace of what may be missing. -/
def optional (trace : Trace α) (start : Nat) : Trace (Option α) :=
  match trace.result with
  | .ok value => ⟨.ok (some value), trace.stop, trace.failures⟩
  | .error _ => ⟨.ok none, start, trace.failures⟩

/-- The trace of what is named where it fails. -/
def label (trace : Trace α) (start : Nat) (name : String) : Trace α :=
  match trace.result with
  | .ok _ => trace
  | .error failure =>
    if failure.index = start then trace.reject { failure with expected := [name] } trace.stop
    else trace

/-- The trace of a test of the token at an index, if there is one. -/
def satisfy (accepts : Lexeme → Bool) (expected : String) (token? : Option Token) (start : Nat) :
    Trace String :=
  match token?.filter (accepts ·.lexeme) with
  | some token => ⟨.ok token.lexeme.text, start + 1, []⟩
  | none => (succeed () start).reject ⟨start, "unexpected token", [expected]⟩ start

/-- The trace of a number, by the trace of its sign and digits. -/
def number (trace : Trace (Option String × String)) (start : Nat) : Trace Expr :=
  match trace.result with
  | .error failure => ⟨.error failure, trace.stop, trace.failures⟩
  | .ok (sign, digits) =>
    let text := sign.getD "" ++ digits
    match Decimal.readInt64 text with
    | .ok value => ⟨.ok (.int value), trace.stop, trace.failures⟩
    | .error _ => trace.reject ⟨start, "integer literal " ++ text ++ " out of range", []⟩ start

/-- The trace of what has to consume a number of tokens. -/
def complete (trace : Trace α) (size : Nat) : Trace α :=
  match trace.result with
  | .ok _ =>
    if trace.stop < size then
      trace.reject ⟨trace.stop, "unconsumed input", ["end of input"]⟩ trace.stop
    else trace
  | .error _ => trace

/-! ## Runs and their traces -/

namespace Describes

variable {state : State} {parser : Production α}

theorem eq_ok {trace : Trace α} {outcome : Except ParseError α × State} {value : α}
    (h : trace.Describes state outcome) (hok : trace.result = .ok value) :
    outcome = (.ok value, outcome.2) := by
  refine Prod.ext ?_ rfl
  rw [h.result, hok]
  rfl

theorem eq_error {trace : Trace α} {outcome : Except ParseError α × State} {failure : Failure}
    (h : trace.Describes state outcome) (hfails : trace.result = .error failure) :
    outcome = (.error (failure.report state.tokens), outcome.2) := by
  refine Prod.ext ?_ rfl
  rw [h.result, hfails]
  rfl

/-- One more failure is recorded. -/
theorem reject {trace : Trace α} {outcome : Except ParseError α × State}
    (h : trace.Describes state outcome) (failure : Failure) (stop : Nat) :
    (trace.reject failure stop : Trace β).Describes state
      (Parser.reject (failure.report state.tokens) (outcome.2.restore stop)) where
  result := rfl
  tokens := h.tokens
  index := rfl
  furthest := by
    rw [Trace.reject, List.map_append, furthestOf_append, ← h.furthest]
    rfl

/-- One more failure is recorded where the cursor was left. -/
theorem reject_here {trace : Trace α} {outcome : Except ParseError α × State}
    (h : trace.Describes state outcome) (failure : Failure) :
    (trace.reject failure trace.stop : Trace β).Describes state
      (Parser.reject (failure.report state.tokens) outcome.2) := by
  have hreject := h.reject (β := β) failure trace.stop
  rw [← h.index, ParseState.restore_index, h.index] at hreject
  exact hreject

/-- What a second run does behind a first one. -/
theorem behind {first : Trace α} {second : Trace β} {outcome : Except ParseError α × State}
    {outcome' : Except ParseError β × State} (h : first.Describes state outcome)
    (h' : second.Describes outcome.2 outcome') :
    (second.after first.failures).Describes state outcome' where
  result := by
    rw [h'.result, h.tokens]
    rfl
  tokens := h'.tokens.trans h.tokens
  index := h'.index
  furthest := by
    rw [h'.furthest, h.furthest, h.tokens, ← furthestOf_append, ← List.map_append]
    rfl

theorem succeed (state : State) (value : α) :
    (Trace.succeed value state.index).Describes state (Parser.succeed value state) :=
  ⟨rfl, rfl, rfl, rfl⟩

section Sequences

variable {first : Trace α} {second : Trace β} {next : α → Production β}

theorem andThen_error {failure : Failure} (h : first.Describes state (parser state))
    (hfails : first.result = .error failure) :
    (⟨.error failure, first.stop, first.failures⟩ : Trace β).Describes state
      (parser.andThen next state) := by
  rw [Parser.andThen_of_error (h.eq_error hfails)]
  exact ⟨rfl, h.tokens, h.index, h.furthest⟩

theorem andThen_ok {value : α} (h : first.Describes state (parser state))
    (hok : first.result = .ok value)
    (h' : second.Describes (parser state).2 (next value (parser state).2)) :
    (second.after first.failures).Describes state (parser.andThen next state) := by
  rw [Parser.andThen_of_ok (h.eq_ok hok)]
  exact h.behind h'

end Sequences

/-- Two alternatives come out with what is chosen from their results. -/
theorem or_eq_choice {left right : Trace α} {second : Production α}
    (h : left.Describes state (parser state))
    (h' : right.Describes ((parser state).2.restore state.index)
      (second ((parser state).2.restore state.index))) :
    parser.or second state = ((left.choice right state.index).1.mapError (·.report state.tokens),
      (second ((parser state).2.restore state.index)).2.restore
        (left.choice right state.index).2) := by
  have htokens : ((parser state).2.restore state.index).tokens = state.tokens := h.tokens
  have hindex := h.index
  have hindex' := h'.index
  unfold Parser.or choice
  dsimp only
  rw [h.result, h'.result, htokens]
  cases left.result with
  | ok a =>
    cases right.result with
    | ok b =>
      simp only [Except.mapError, hindex, hindex']
      split
      · rw [← hindex']
        rfl
      · rfl
    | error f => simp only [Except.mapError, hindex]
  | error e =>
    cases right.result with
    | ok b =>
      simp only [Except.mapError, ← hindex']
      rfl
    | error f =>
      simp only [Except.mapError, Failure.report]
      split <;> rfl

theorem or {left right : Trace α} {second : Production α} (h : left.Describes state (parser state))
    (h' : right.Describes ((parser state).2.restore state.index)
      (second ((parser state).2.restore state.index))) :
    (left.or right state.index).Describes state (parser.or second state) := by
  rw [or_eq_choice h h']
  refine ⟨rfl, h'.tokens.trans h.tokens, rfl, ?_⟩
  rw [Trace.or, List.map_append, furthestOf_append, ← h.furthest, ← h.tokens]
  exact h'.furthest

theorem optional {trace : Trace α} (h : trace.Describes state (parser state)) :
    (trace.optional state.index).Describes state (Parser.optional parser state) := by
  unfold Trace.optional
  cases htrace : trace.result with
  | ok value =>
    rw [Parser.optional_of_ok (h.eq_ok htrace)]
    exact ⟨rfl, h.tokens, h.index, h.furthest⟩
  | error failure =>
    rw [Parser.optional_of_error (h.eq_error htrace)]
    exact ⟨rfl, h.tokens, rfl, h.furthest⟩

theorem label {trace : Trace α} (h : trace.Describes state (parser state)) (name : String) :
    (trace.label state.index name).Describes state (parser.label name state) := by
  unfold Trace.label
  cases htrace : trace.result with
  | ok value =>
    have hok := h.eq_ok htrace
    rw [Parser.label_of_ok hok, ← hok]
    exact h
  | error failure =>
    have herror := h.eq_error htrace
    rw [Parser.label_of_error herror, ← herror]
    have hreport : (failure.report state.tokens).index = failure.index := rfl
    rw [hreport]
    dsimp only
    split
    · exact h.reject_here { failure with expected := [name] }
    · exact h

theorem satisfy (state : State) (accepts : Lexeme → Bool) (expected : String) :
    (Trace.satisfy accepts expected state.peek? state.index).Describes state
      (Parser.satisfy accepts expected state) := by
  unfold Parser.satisfy Trace.satisfy
  cases hpeek : state.peek?.filter (accepts ·.lexeme) with
  | some token =>
    have hnext : state.hasNext = true := by
      rw [ParseState.hasNext, decide_eq_true_eq]
      exact (Array.getElem?_eq_some_iff.1 (Option.filter_eq_some_iff.1 hpeek).1).1
    refine ⟨rfl, ?_, ?_, ?_⟩ <;> simp only [ParseState.advance, hnext, if_true] <;> rfl
  | none =>
    rw [ParseState.errorHere_eq_report]
    exact (succeed state ()).reject ⟨state.index, "unexpected token", [expected]⟩ state.index

/-- The rounds of a chain end where one fails. -/
theorem chainFrom_stop {item : Production α} {separator : Production (α → α → α)} {rounds : Nat}
    {folded : α} {round : Trace α} {failure : Failure}
    (h : round.Describes state ((separator.andThen fun combine => item.map (combine folded)) state))
    (hfails : round.result = .error failure) :
    (⟨.ok folded, state.index, round.failures⟩ : Trace α).Describes state
      (Parser.chainFrom item separator (rounds + 1) folded state) := by
  rw [Parser.chainFrom_of_error (h.eq_error hfails)]
  exact ⟨rfl, h.tokens, rfl, h.furthest⟩

/-- The rounds of a chain go on behind one that succeeds. -/
theorem chainFrom_round {item : Production α} {separator : Production (α → α → α)} {rounds : Nat}
    {folded next : α} {round rest : Trace α}
    (h : round.Describes state ((separator.andThen fun combine => item.map (combine folded)) state))
    (hok : round.result = .ok next)
    (hrest : rest.Describes
      ((separator.andThen fun combine => item.map (combine folded)) state).2
      (Parser.chainFrom item separator rounds next
        ((separator.andThen fun combine => item.map (combine folded)) state).2)) :
    (rest.after round.failures).Describes state
      (Parser.chainFrom item separator (rounds + 1) folded state) := by
  rw [Parser.chainFrom_of_ok (h.eq_ok hok)]
  exact h.behind hrest

theorem number {trace : Trace (Option String × String)}
    (h : trace.Describes state
      (((Parser.optional (Parser.literal "-")).seq (Parser.tag .number)) state)) :
    (trace.number state.index).Describes state (Grammar.number state) := by
  unfold Grammar.number Trace.number
  cases htrace : trace.result with
  | error failure =>
    rw [h.eq_error htrace]
    exact ⟨rfl, h.tokens, h.index, h.furthest⟩
  | ok pair =>
    have hok := h.eq_ok htrace
    generalize (((Parser.optional (Parser.literal "-")).seq (Parser.tag .number)) state).2 = behind
      at hok
    rw [hok] at h ⊢
    dsimp only
    cases Decimal.readInt64 (pair.1.getD "" ++ pair.2) with
    | ok value => exact ⟨rfl, h.tokens, h.index, h.furthest⟩
    | error fault =>
      have htokens : (behind.restore state.index).tokens = state.tokens := h.tokens
      dsimp only
      rw [ParseState.errorHere_eq_report, htokens]
      exact h.reject _ state.index

theorem complete {trace : Trace α} (h : trace.Describes state (parser state)) :
    (trace.complete state.tokens.size).Describes state (parser.complete state) := by
  unfold Trace.complete
  cases htrace : trace.result with
  | error failure =>
    have hfails : (⟨.error failure, trace.stop, trace.failures⟩ : Trace α).Describes state
        (parser.complete state) := h.andThen_error htrace
    rw [← htrace] at hfails
    exact hfails
  | ok value =>
    have hok := h.eq_ok htrace
    have hrun : parser.complete state = _ := Parser.andThen_of_ok hok
    rw [hrun]
    dsimp only
    have hnext : (parser state).2.hasNext = true ↔ trace.stop < state.tokens.size := by
      rw [ParseState.hasNext, decide_eq_true_eq, h.index, h.tokens]
    by_cases hlt : trace.stop < state.tokens.size
    · rw [if_pos hlt, if_pos (hnext.2 hlt), ParseState.errorHere_eq_report, h.index, h.tokens]
      exact h.reject_here _
    · rw [if_neg hlt, if_neg (mt hnext.1 hlt), ← hok]
      exact h

end Describes

/-! ## Whole runs -/

/-- What is reported after a run on some tokens: the furthest failure, if there is one. -/
def answer (trace : Trace α) (tokens : List Token) : Except ParseError α :=
  match trace.result with
  | .ok value => .ok value
  | .error failure =>
    let furthest := (furthestOf none (trace.failures.map (·.report tokens.toArray))).getD
      (failure.report tokens.toArray)
    .error { furthest with
      remainder := some (" ".intercalate ((tokens.drop furthest.index).map (·.lexeme.text))) }

/-- A run of a parser on all tokens reports the answer of its trace. -/
theorem Describes.run_eq_answer {tokens : List Token} {parser : Production α} {trace : Trace α}
    (h : trace.Describes (.start tokens) (parser (.start tokens))) :
    parser.run tokens = trace.answer tokens := by
  have hresult := h.result
  have htokens := h.tokens
  have hfurthest := h.furthest
  unfold Parser.run answer
  rcases hparse : parser (.start tokens) with ⟨result, behind⟩
  rw [hparse] at hresult hfurthest htokens
  cases htrace : trace.result with
  | ok value =>
    rw [htrace] at hresult
    cases hresult
    rfl
  | error failure =>
    rw [htrace] at hresult
    cases hresult
    dsimp only at hfurthest htokens ⊢
    rw [hfurthest]
    simp only [ParseState.remainder, ParseState.remaining, ParseState.restore, htokens,
      ParseState.start]

end Trace

/-! ## All runs from an index -/

namespace HasTrace

variable {tokens : Array Token} {index : Nat} {parser : Production α}

theorem succeed (value : α) :
    HasTrace tokens index (Parser.succeed value) (.succeed value index) := by
  rintro state - rfl
  exact .succeed state value

theorem andThen_error {first : Trace α} {failure : Failure} {next : α → Production β}
    (h : HasTrace tokens index parser first) (hfails : first.result = .error failure) :
    HasTrace tokens index (parser.andThen next) ⟨.error failure, first.stop, first.failures⟩ :=
  fun state htokens hindex => (h state htokens hindex).andThen_error hfails

theorem andThen_ok {first : Trace α} {second : Trace β} {value : α} {next : α → Production β}
    (h : HasTrace tokens index parser first) (hok : first.result = .ok value)
    (h' : HasTrace tokens first.stop (next value) second) :
    HasTrace tokens index (parser.andThen next) (second.after first.failures) := by
  intro state htokens hindex
  have hfirst := h state htokens hindex
  exact hfirst.andThen_ok hok (h' _ (hfirst.tokens.trans htokens) hfirst.index)

theorem or {other : Production α} {left right : Trace α} (h : HasTrace tokens index parser left)
    (h' : HasTrace tokens index other right) :
    HasTrace tokens index (parser.or other) (left.or right index) := by
  rintro state htokens rfl
  have hleft := h state htokens rfl
  exact hleft.or (h' _ (hleft.tokens.trans htokens) rfl)

theorem optional {trace : Trace α} (h : HasTrace tokens index parser trace) :
    HasTrace tokens index (Parser.optional parser) (trace.optional index) := by
  rintro state htokens rfl
  exact (h state htokens rfl).optional

theorem label {trace : Trace α} (h : HasTrace tokens index parser trace) (name : String) :
    HasTrace tokens index (parser.label name) (trace.label index name) := by
  rintro state htokens rfl
  exact (h state htokens rfl).label name

theorem satisfy (accepts : Lexeme → Bool) (expected : String) :
    HasTrace tokens index (Parser.satisfy accepts expected)
      (.satisfy accepts expected tokens[index]? index) := by
  rintro state rfl rfl
  exact .satisfy state accepts expected

theorem chainFrom_stop {item : Production α} {separator : Production (α → α → α)} {folded : α}
    {round : Trace α} {failure : Failure}
    (h : HasTrace tokens index (separator.andThen fun combine => item.map (combine folded)) round)
    (hfails : round.result = .error failure) (rounds : Nat) :
    HasTrace tokens index (Parser.chainFrom item separator (rounds + 1) folded)
      ⟨.ok folded, index, round.failures⟩ := by
  rintro state htokens rfl
  exact (h state htokens rfl).chainFrom_stop hfails

theorem chainFrom_round {item : Production α} {separator : Production (α → α → α)}
    {folded next : α} {round rest : Trace α} {rounds : Nat}
    (h : HasTrace tokens index (separator.andThen fun combine => item.map (combine folded)) round)
    (hok : round.result = .ok next)
    (hrest : HasTrace tokens round.stop (Parser.chainFrom item separator rounds next) rest) :
    HasTrace tokens index (Parser.chainFrom item separator (rounds + 1) folded)
      (rest.after round.failures) := by
  intro state htokens hindex
  have hround := h state htokens hindex
  exact hround.chainFrom_round hok (hrest _ (hround.tokens.trans htokens) hround.index)

theorem number {trace : Trace (Option String × String)}
    (h : HasTrace tokens index ((Parser.optional (Parser.literal "-")).seq (Parser.tag .number))
      trace) : HasTrace tokens index Grammar.number (trace.number index) := by
  rintro state htokens rfl
  exact (h state htokens rfl).number

end HasTrace

end WhileLang

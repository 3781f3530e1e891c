import Mathlib.Data.List.Perm.Subperm
import Mathlib.Data.List.ProdSigma
import WhileLang.Proofs.Parser.Exactness

/-!
# No rule is started twice at one place

A rule leaves a mark where its body starts, and stores its result when the body has ended.  Between
the two it could start itself again.  It does not, for at one index bodies run rules of a smaller
rank only.  So a number says which rules may be started: those that are lower, where a rule is the
lower the less tokens are left and the smaller its rank is.  All lower rules that were started have
ended, while those that still run are as high as the number at least.

Main definitions:

- Function {lit}`Grammar.unfolded`: the rules unfolded to a depth, with any parsers below it.
- Structures {lit}`Orderly` and {lit}`Passes`: all lower rules that were started have ended, and
  stay so while more of them are started.
- Relation {lit}`Descends`: two parsers do the same, and start lower rules only.
- Structure {lit}`Grammar.StartsOnce`: a parse that ends, with no rule started twice at one index.

Main results:

- Theorem {lit}`descends_unfolded`: rules start lower rules only, if there are enough of them.
- Theorem {lit}`Grammar.startsOnce`: expressions, blocks and programs are parsed that way.
-/

namespace WhileLang

open Grammar (Production Rules State)

variable {α β : Type}

/-! ## Rules without a bottom -/

namespace Grammar

/-- The rules unfolded to a depth, where any parsers stand for the rules below it. -/
def unfolded (bottom : Rules) : Nat → Rules
  | 0 => bottom
  | depth + 1 => fun rule state =>
    match state.«recall?» rule with
    | some (result, stop) => (result, state.restore stop)
    | none => Parser.runBody .stored rule (production (unfolded bottom depth) rule) state

/-- The rules of the parser fail at the bottom. -/
theorem rules_eq_unfolded (depth : Nat) :
    rules .stored depth = unfolded (fun _ => Parser.fail "nesting too deep") depth := by
  induction depth with
  | zero => rfl
  | succ depth ih =>
    funext rule state
    rw [rules_succ, ih]
    rfl

/-- Unfolded rules may stand at the bottom of others. -/
theorem unfolded_add (bottom : Rules) (depth more : Nat) :
    unfolded bottom (depth + more) = unfolded (unfolded bottom more) depth := by
  induction depth with
  | zero => rw [Nat.zero_add, unfolded]
  | succ depth ih =>
    rw [Nat.succ_add]
    funext rule state
    simp only [unfolded, ih]

end Grammar

/-! ## Starts of rules -/

/-- How high the start of a rule at an index is, among so many tokens. -/
def startHeight (size : Nat) (start : Nonterminal × Nat) : Nat :=
  4 * (size - start.2) + start.1.rank

namespace ParseState

variable {state : State}

/-- The rule started at an index has ended, and its result is stored. -/
def HasEnded (state : State) (start : Nonterminal × Nat) : Prop :=
  ((state.restore start.2).«recall?» start.1).isSome = true

/-- What was stored last has ended. -/
theorem hasEnded_store (state : State) (rule : Nonterminal) (index : Nat)
    (result : Except ParseError rule.Tree) :
    (state.store rule index result).HasEnded (rule, index) := by
  rw [HasEnded, recall?_store]
  rfl

/-- What has ended stays so. -/
theorem HasEnded.store {start : Nonterminal × Nat} (h : state.HasEnded start) (rule : Nonterminal)
    (index : Nat) (result : Except ParseError rule.Tree) :
    (state.store rule index result).HasEnded start := by
  by_cases hsame : rule = start.1 ∧ index = start.2
  · obtain ⟨rfl, rfl⟩ := hsame
    exact hasEnded_store state _ _ result
  · rw [HasEnded, recall?_store_of_ne state result hsame]
    exact h

end ParseState

/-- No rule was started twice at one index, and the lower ones have ended. -/
structure Orderly (height : Nat) (state : State) : Prop where
  index_le : state.index ≤ state.tokens.size
  start_le : ∀ start ∈ state.marks, start.2 ≤ state.tokens.size
  nodup : state.marks.Nodup
  ended : ∀ start ∈ state.marks, startHeight state.tokens.size start < height →
    state.HasEnded start
  stored : ∀ (rule : Nonterminal) (start : Nat) (result : Except ParseError rule.Tree) (stop : Nat),
    (state.restore start).«recall?» rule = some (result, stop) →
      stop ≤ state.tokens.size ∧ ∀ value, result = .ok value → start + 1 ≤ stop

/-- From one state to another lower rules are started only, and all of them end. -/
structure Passes (height : Nat) (state after : State) : Prop where
  tokens : after.tokens = state.tokens
  keeps : ∀ start, state.HasEnded start → after.HasEnded start
  started : ∀ start ∈ after.marks,
    start ∈ state.marks ∨ startHeight state.tokens.size start < height
  orderly : Orderly height after

namespace Passes

variable {height : Nat} {state middle after : State}

theorem refl (h : Orderly height state) : Passes height state state :=
  ⟨rfl, fun _ => id, fun _ => .inl, h⟩

theorem trans (h : Passes height state middle) (h' : Passes height middle after) :
    Passes height state after where
  tokens := h'.tokens.trans h.tokens
  keeps start hended := h'.keeps start (h.keeps start hended)
  started start hmem := (h'.started start hmem).elim (h.started start) fun hlow =>
    .inr (h.tokens ▸ hlow)
  orderly := h'.orderly

theorem restore (h : Passes height state after) {index : Nat} (hindex : index ≤ after.tokens.size) :
    Passes height state (after.restore index) where
  tokens := h.tokens
  keeps := h.keeps
  started := h.started
  orderly := ⟨hindex, h.orderly.start_le, h.orderly.nodup, h.orderly.ended, h.orderly.stored⟩

theorem record (h : Passes height state after) (error : ParseError) :
    Passes height state (after.record error) where
  tokens := h.tokens
  keeps := h.keeps
  started := h.started
  orderly := ⟨h.orderly.index_le, h.orderly.start_le, h.orderly.nodup, h.orderly.ended,
    h.orderly.stored⟩

/-- Going back to where the first state was. -/
theorem back (h : Passes height state after) (hstate : Orderly height state) :
    Passes height state (after.restore state.index) :=
  h.restore (h.tokens ▸ hstate.index_le)

end Passes

/-- What a parser passes through, with the number of tokens that it consumes at least. -/
structure Descent (height least : Nat) (state : State) (outcome : Except ParseError α × State) :
    Prop where
  passes : Passes height state outcome.2
  consumes : ∀ value, outcome.1 = .ok value → state.index + least ≤ outcome.2.index

/-- Where a parser fails nothing has to be consumed. -/
theorem Descent.failed {height least : Nat} {state after : State} {error : ParseError}
    (h : Passes height state after) :
    Descent height least state ((.error error, after) : Except ParseError α × State) where
  passes := h
  consumes := nofun

/-- What a parser does behind tokens that were consumed. -/
theorem Descent.behind {height least least' : Nat} {state middle : State}
    {outcome : Except ParseError α × State} (h : Descent height least' middle outcome)
    (hpasses : Passes height state middle) (hindex : state.index + least ≤ middle.index) :
    Descent height (least + least') state outcome := by
  refine ⟨hpasses.trans h.passes, fun value hvalue => ?_⟩
  have hbehind := h.consumes value hvalue
  omega

/--
Two parsers do the same as long as the rules to be started are not higher than a limit.  At the
index they are started at these have smaller ranks than a given one.
-/
def Descends (limit rank least : Nat) (parser other : Production α) : Prop :=
  ∀ (height : Nat) (state : State), height ≤ limit →
    4 * (state.tokens.size - state.index) + rank ≤ height → Orderly height state →
      other state = parser state ∧ Descent height least state (parser state)

namespace Descends

variable {limit rank least : Nat} {parser other : Production α}

theorem mono {rank' least' : Nat} (h : Descends limit rank least parser other)
    (hrank : rank ≤ rank') (hleast : least' ≤ least) :
    Descends limit rank' least' parser other := by
  intro height state hlimit hheight horderly
  obtain ⟨heq, hpasses, hconsumes⟩ := h height state hlimit (by omega) horderly
  refine ⟨heq, hpasses, fun value hvalue => ?_⟩
  have hindex := hconsumes value hvalue
  omega

theorem succeed (value : α) :
    Descends limit rank 0 (Parser.succeed value) (Parser.succeed value) := by
  intro height state _ _ horderly
  exact ⟨rfl, .refl horderly, fun _ _ => Nat.le_refl _⟩

/-- Tokens that are consumed make all rules lower. -/
theorem andThen {rank' least' : Nat} {next others : α → Production β}
    (h : Descends limit rank least parser other)
    (hnext : ∀ value, Descends limit rank' least' (next value) (others value))
    (hrank : rank' ≤ rank + 4 * least) :
    Descends limit rank (least + least') (parser.andThen next) (other.andThen others) := by
  intro height state hlimit hheight horderly
  obtain ⟨heq, hpasses, hconsumes⟩ := h height state hlimit hheight horderly
  rcases hparse : parser state with ⟨result, behind⟩
  rw [hparse] at heq hpasses hconsumes
  unfold Parser.andThen
  rw [hparse, heq]
  cases result with
  | error error => exact ⟨rfl, .failed hpasses⟩
  | ok value =>
    have hindex : state.index + least ≤ behind.index := hconsumes value rfl
    have hbound : behind.index ≤ behind.tokens.size := hpasses.orderly.index_le
    have htokens : behind.tokens = state.tokens := hpasses.tokens
    rw [htokens] at hbound
    have hlow : 4 * (behind.tokens.size - behind.index) + rank' ≤ height := by
      rw [htokens]
      omega
    obtain ⟨heq', hdescent⟩ := hnext value height behind hlimit hlow hpasses.orderly
    exact ⟨heq', hdescent.behind hpasses hindex⟩

theorem map (h : Descends limit rank least parser other) (f : α → β) :
    Descends limit rank least (parser.map f) (other.map f) :=
  h.andThen (fun value => .succeed (f value)) (Nat.le_add_right rank (4 * least))

section Sequences

variable {least' : Nat} {second another : Production β}

theorem seq (h : Descends limit rank 1 parser other) (h' : Descends limit 4 least' second another) :
    Descends limit rank 1 (parser.seq second) (other.seq another) :=
  (h.andThen (fun _ => h'.map _) (Nat.le_add_left _ _)).mono (Nat.le_refl _) (Nat.le_add_right _ _)

theorem skip (h : Descends limit rank 1 parser other)
    (h' : Descends limit 4 least' second another) :
    Descends limit rank 1 (parser.skip second) (other.skip another) :=
  (h.andThen (fun _ => h'.map _) (Nat.le_add_left _ _)).mono (Nat.le_refl _) (Nat.le_add_right _ _)

theorem skipLeft (h : Descends limit rank 1 parser other)
    (h' : Descends limit 4 least' second another) :
    Descends limit rank 1 (parser.skipLeft second) (other.skipLeft another) :=
  (h.andThen (fun _ => h') (Nat.le_add_left _ _)).mono (Nat.le_refl _) (Nat.le_add_right _ _)

end Sequences

/-- The second alternative starts where the first one did. -/
theorem or {second another : Production α} (h : Descends limit rank least parser other)
    (h' : Descends limit rank least second another) :
    Descends limit rank least (parser.or second) (other.or another) := by
  intro height state hlimit hheight horderly
  obtain ⟨heq, hpasses, hconsumes⟩ := h height state hlimit hheight horderly
  rcases hparse : parser state with ⟨result, behind⟩
  rw [hparse] at heq hpasses hconsumes
  have hback := hpasses.back horderly
  obtain ⟨heq', hpasses', hconsumes'⟩ := h' height (behind.restore state.index) hlimit
    (by rw [hback.tokens]; exact hheight) hback.orderly
  rcases hsecond : second (behind.restore state.index) with ⟨result', after⟩
  rw [hsecond] at heq' hpasses' hconsumes'
  have hall := hback.trans hpasses'
  have hbound : behind.index ≤ after.tokens.size := by
    rw [hall.tokens, ← hpasses.tokens]
    exact hpasses.orderly.index_le
  unfold Parser.or
  simp only [hparse, heq, hsecond, heq', true_and]
  cases result with
  | ok a =>
    cases result' with
    | ok b =>
      simp only
      split
      · exact ⟨hall, fun _ _ => hconsumes' b rfl⟩
      · exact ⟨hall.restore hbound, fun _ _ => hconsumes a rfl⟩
    | error error => exact ⟨hall.restore hbound, fun _ _ => hconsumes a rfl⟩
  | error error =>
    cases result' with
    | ok b => exact ⟨hall, fun _ _ => hconsumes' b rfl⟩
    | error error' => exact .failed (hall.back horderly)

theorem optional (h : Descends limit rank least parser other) :
    Descends limit rank 0 (Parser.optional parser) (Parser.optional other) := by
  intro height state hlimit hheight horderly
  obtain ⟨heq, hpasses, hconsumes⟩ := h height state hlimit hheight horderly
  rcases hparse : parser state with ⟨result, behind⟩
  rw [hparse] at heq hpasses hconsumes
  unfold Parser.optional
  rw [hparse, heq]
  cases result with
  | ok value =>
    have hindex : state.index + least ≤ behind.index := hconsumes value rfl
    exact ⟨rfl, hpasses, fun _ _ => Nat.le_of_add_right_le hindex⟩
  | error error => exact ⟨rfl, hpasses.back horderly, fun _ _ => Nat.le_refl _⟩

theorem label (h : Descends limit rank least parser other) (name : String) :
    Descends limit rank least (parser.label name) (other.label name) := by
  intro height state hlimit hheight horderly
  obtain ⟨heq, hpasses, hconsumes⟩ := h height state hlimit hheight horderly
  rcases hparse : parser state with ⟨result, behind⟩
  rw [hparse] at heq hpasses hconsumes
  unfold Parser.label
  rw [hparse, heq]
  refine ⟨rfl, ?_⟩
  cases result with
  | ok value => exact ⟨hpasses, fun _ _ => hconsumes value rfl⟩
  | error error =>
    simp only
    split
    · exact .failed (hpasses.record _)
    · exact .failed hpasses

theorem satisfy (accepts : Lexeme → Bool) (expected : String) :
    Descends limit rank 1 (Parser.satisfy accepts expected) (Parser.satisfy accepts expected) := by
  intro height state _ _ horderly
  refine ⟨rfl, ?_⟩
  unfold Parser.satisfy
  cases hpeek : state.peek?.filter (accepts ·.lexeme) with
  | some token =>
    have hindex : state.index < state.tokens.size :=
      (Array.getElem?_eq_some_iff.1 (Option.filter_eq_some_iff.1 hpeek).1).1
    have hnext : state.advance = state.restore (state.index + 1) := by
      rw [ParseState.advance, ParseState.hasNext, if_pos (decide_eq_true hindex)]
    rw [hnext]
    exact ⟨(Passes.refl horderly).restore hindex, fun _ _ => Nat.le_refl _⟩
  | none => exact .failed ((Passes.refl horderly).record _)

theorem tag (wanted : Tag) : Descends limit rank 1 (Parser.tag wanted) (Parser.tag wanted) :=
  satisfy _ _

theorem literal (text : String) :
    Descends limit rank 1 (Parser.literal text) (Parser.literal text) :=
  satisfy _ _

/-! ## Chains -/

section Chains

variable {separator separator' : Production (α → α → α)}

theorem chainFrom (hitem : Descends limit 4 1 parser other)
    (hseparator : Descends limit 4 1 separator separator') (rounds : Nat) (folded : α) :
    Descends limit 4 0 (Parser.chainFrom parser separator rounds folded)
      (Parser.chainFrom other separator' rounds folded) := by
  induction rounds generalizing folded with
  | zero => exact .succeed folded
  | succ rounds ih =>
    intro height state hlimit hheight horderly
    have hround : Descends limit 4 2
        (separator.andThen fun combine => parser.map (combine folded))
        (separator'.andThen fun combine => other.map (combine folded)) :=
      hseparator.andThen (fun combine => hitem.map (combine folded)) (Nat.le_add_right _ _)
    obtain ⟨heq, hpasses, hconsumes⟩ := hround height state hlimit hheight horderly
    rw [Reads.chainFrom_succ, Reads.chainFrom_succ, heq]
    rcases hparse : (separator.andThen fun combine => parser.map (combine folded)) state with
      ⟨result, behind⟩
    rw [hparse] at hpasses hconsumes
    cases result with
    | error error => exact ⟨rfl, hpasses.back horderly, fun _ _ => Nat.le_refl _⟩
    | ok next =>
      have hindex : state.index + 2 ≤ behind.index := hconsumes next rfl
      have htokens : behind.tokens = state.tokens := hpasses.tokens
      have hlow : 4 * (behind.tokens.size - behind.index) + 4 ≤ height := by
        rw [htokens]
        omega
      obtain ⟨heq', hdescent⟩ := ih next height behind hlimit hlow hpasses.orderly
      have hahead : state.index + 0 ≤ behind.index := by omega
      exact ⟨heq', hdescent.behind hpasses hahead⟩

/-- The items behind the first one come behind tokens. -/
theorem chainLeft (hitem : Descends limit rank 1 parser other) (hrank : rank ≤ 4)
    (hseparator : Descends limit 4 1 separator separator') :
    Descends limit rank 1 (parser.chainLeft separator) (other.chainLeft separator') := by
  have hrounds : ∀ first, Descends limit 4 0
      (fun state => Parser.chainFrom parser separator (state.tokens.size - state.index + 1) first
        state)
      (fun state => Parser.chainFrom other separator' (state.tokens.size - state.index + 1) first
        state) := fun first height state =>
    chainFrom (hitem.mono hrank (Nat.le_refl 1)) hseparator _ first height state
  exact hitem.andThen hrounds (Nat.le_add_left _ _)

theorem separated (hitem : Descends limit rank 1 parser other) (hrank : rank ≤ 4)
    (text : String) :
    Descends limit rank 1 (Parser.separated parser text) (Parser.separated other text) :=
  (hitem.map _).chainLeft hrank ((literal text).map _)

theorem commaList (hitem : Descends limit rank 1 parser other) (hrank : rank ≤ 4) :
    Descends limit rank 0 (Grammar.commaList parser) (Grammar.commaList other) :=
  (hitem.separated hrank ",").optional.map _

end Chains

theorem complete (h : Descends limit rank least parser other) :
    Descends limit rank least parser.complete other.complete := by
  intro height state hlimit hheight horderly
  obtain ⟨heq, hpasses, hconsumes⟩ := h height state hlimit hheight horderly
  rcases hparse : parser state with ⟨result, behind⟩
  rw [hparse] at heq hpasses hconsumes
  unfold Parser.complete Parser.andThen
  rw [hparse, heq]
  refine ⟨rfl, ?_⟩
  cases result with
  | ok value =>
    dsimp only
    split
    · exact .failed (hpasses.record _)
    · exact ⟨hpasses, fun _ _ => hconsumes value rfl⟩
  | error error => exact .failed hpasses

/-! ## Productions -/

theorem number : Descends limit rank 1 Grammar.number Grammar.number := by
  have hdigits : Descends limit rank 1 ((Parser.optional (Parser.literal "-")).seq
      (Parser.tag .number)) ((Parser.optional (Parser.literal "-")).seq (Parser.tag .number)) := by
    have hsign : Descends limit rank 0 (Parser.optional (Parser.literal "-"))
        (Parser.optional (Parser.literal "-")) := (literal "-" : Descends limit rank 1 _ _).optional
    exact hsign.andThen (fun _ => (tag .number).map _) (Nat.le_refl _)
  intro height state hlimit hheight horderly
  obtain ⟨-, hpasses, hconsumes⟩ := hdigits height state hlimit hheight horderly
  refine ⟨rfl, ?_⟩
  unfold Grammar.number
  rcases hparse : ((Parser.optional (Parser.literal "-")).seq (Parser.tag .number)) state with
    ⟨result, behind⟩
  rw [hparse] at hpasses hconsumes
  cases result with
  | error error => exact .failed hpasses
  | ok pair =>
    dsimp only
    split
    · exact ⟨hpasses, fun _ _ => hconsumes pair rfl⟩
    · exact .failed ((hpasses.back horderly).record _)

theorem identifier : Descends limit rank 1 Grammar.identifier Grammar.identifier :=
  tag .variable

theorem variableName : Descends limit rank 1 Grammar.variableName Grammar.variableName :=
  identifier.map _

theorem boolean : Descends limit rank 1 Grammar.boolean Grammar.boolean :=
  (tag .boolean).map _

theorem mathOperator : Descends limit rank 1 Grammar.mathOperator Grammar.mathOperator :=
  ((literal "+").map _).or ((literal "-").map _)

theorem logicOperator : Descends limit rank 1 Grammar.logicOperator Grammar.logicOperator :=
  ((literal "&&").map _).or ((literal "||").map _)

theorem comparisonSymbol (op : CompareOp) :
    Descends limit rank 1 (Grammar.comparisonSymbol op) (Grammar.comparisonSymbol op) :=
  (literal op.symbol).map _

theorem comparisonOperator :
    Descends limit rank 1 Grammar.comparisonOperator Grammar.comparisonOperator :=
  (((((comparisonSymbol .lt).or (comparisonSymbol .le)).or (comparisonSymbol .gt)).or
    (comparisonSymbol .ge)).or (comparisonSymbol .eq)).or (comparisonSymbol .ne)

end Descends

/-- Rules that do the same as others, and start lower rules only, besides themselves. -/
def RulesDescend (limit : Nat) (rules others : Rules) : Prop :=
  ∀ rule : Nonterminal, Descends limit (rule.rank + 1) 1 (rules rule) (others rule)

namespace RulesDescend

variable {limit rank : Nat} {rules others : Rules}

/-- Behind a token any rule may be run. -/
theorem behind (h : RulesDescend limit rules others) (rule : Nonterminal) :
    Descends limit 4 1 (rules rule) (others rule) :=
  (h rule).mono rule.rank_lt (Nat.le_refl 1)

theorem expression (h : RulesDescend limit rules others) :
    Descends limit 4 1 (Grammar.expression rules) (Grammar.expression others) :=
  ((h.behind .logic).or (h.behind .arithmetic)).label _

theorem call (h : RulesDescend limit rules others) :
    Descends limit rank 1 (Grammar.call rules) (Grammar.call others) :=
  (((Descends.identifier.skip (.literal "(")).seq (h.expression.commaList (Nat.le_refl 4))).skip
    (.literal ")")).map _

/-- A rule in parentheses. -/
theorem parenthesized (h : RulesDescend limit rules others) (rule : Nonterminal) :
    Descends limit rank 1 (((Parser.literal "(").skipLeft (rules rule)).skip (Parser.literal ")"))
      (((Parser.literal "(").skipLeft (others rule)).skip (Parser.literal ")")) :=
  ((Descends.literal "(").skipLeft (h.behind rule)).skip (.literal ")")

theorem arithmeticTerm (h : RulesDescend limit rules others) :
    Descends limit rank 1 (Grammar.arithmeticTerm rules) (Grammar.arithmeticTerm others) :=
  (Descends.number.or .variableName).or (h.parenthesized .arithmetic)

theorem arithmetic (h : RulesDescend limit rules others) :
    Descends limit 0 1 (Grammar.arithmetic rules) (Grammar.arithmetic others) :=
  (h.call.or h.arithmeticTerm).chainLeft (Nat.zero_le 4) .mathOperator

theorem comparison (h : RulesDescend limit rules others) :
    Descends limit 1 1 (Grammar.comparison rules) (Grammar.comparison others) :=
  (((h .arithmetic).seq .comparisonOperator).seq (h.behind .arithmetic)).map _

theorem logicTerm (h : RulesDescend limit rules others) :
    Descends limit 1 1 (Grammar.logicTerm rules) (Grammar.logicTerm others) := by
  have hnegation : Descends limit 1 1
      (((Parser.literal "!").skipLeft (rules .logicTerm)).map Expr.not)
      (((Parser.literal "!").skipLeft (others .logicTerm)).map Expr.not) :=
    ((Descends.literal "!").skipLeft (h.behind .logicTerm)).map _
  exact (((Descends.boolean.or h.comparison).or hnegation).or .variableName).or
    (h.parenthesized .logic)

theorem logic (h : RulesDescend limit rules others) :
    Descends limit 2 1 (Grammar.logic rules) (Grammar.logic others) :=
  (h.call.or (h .logicTerm)).chainLeft (by decide) .logicOperator

theorem assignment (h : RulesDescend limit rules others) :
    Descends limit rank 1 (Grammar.assignment rules) (Grammar.assignment others) :=
  ((Descends.identifier.skip (.literal ":=")).seq h.expression).map _

/-- A condition behind a word, with a block. -/
theorem conditionedBlock (h : RulesDescend limit rules others) (word : String) :
    Descends limit rank 1 (((Parser.literal word).skipLeft (rules .logic)).seq (rules .block))
      (((Parser.literal word).skipLeft (others .logic)).seq (others .block)) :=
  ((Descends.literal word).skipLeft (h.behind .logic)).seq (h.behind .block)

theorem conditional (h : RulesDescend limit rules others) :
    Descends limit rank 1 (Grammar.conditional rules) (Grammar.conditional others) :=
  (((h.conditionedBlock "if").seq
    ((Descends.literal "else").skipLeft (h.behind .block)).optional).skip (.literal "end")).map _

theorem loop (h : RulesDescend limit rules others) :
    Descends limit rank 1 (Grammar.loop rules) (Grammar.loop others) :=
  ((h.conditionedBlock "while").skip (.literal "end")).map _

theorem block (h : RulesDescend limit rules others) :
    Descends limit 0 1 (Grammar.block rules) (Grammar.block others) :=
  (((h.assignment.or h.conditional).or h.loop).label _).chainLeft (Nat.zero_le 4)
    ((Descends.literal ";").map _)

theorem function (h : RulesDescend limit rules others) :
    Descends limit rank 1 (Grammar.function rules) (Grammar.function others) := by
  have hheader : Descends limit rank 1 (((Parser.literal "func").skipLeft Grammar.identifier).seq
      (((Parser.literal "(").skipLeft (Grammar.commaList Grammar.identifier)).skip
        (Parser.literal ")"))) _ :=
    ((Descends.literal "func").skipLeft .identifier).seq
      (((Descends.literal "(").skipLeft (Descends.identifier.commaList (Nat.le_refl 4))).skip
        (.literal ")"))
  have hbody : Descends limit 4 1
      (((Parser.literal "\x7b").skipLeft (Parser.optional (rules .block))).skip
        (Parser.optional (Parser.literal ";"))) _ :=
    ((Descends.literal "\x7b").skipLeft (h.behind .block).optional).skip
      (Descends.literal ";").optional
  have hresult : Descends limit 4 1
      (((Parser.literal "return").skipLeft (Grammar.expression rules)).skip
        (Parser.literal "\x7d")) _ :=
    ((Descends.literal "return").skipLeft h.expression).skip (.literal "\x7d")
  exact ((hheader.seq hbody).seq hresult).map _

theorem program (h : RulesDescend limit rules others) :
    Descends limit 4 1 (Grammar.program rules) (Grammar.program others) :=
  (h.function.separated (Nat.le_refl 4) ";").map _

/-- At the index a body starts at it runs rules of a smaller rank only. -/
theorem production (h : RulesDescend limit rules others) (rule : Nonterminal) :
    Descends limit rule.rank 1 (Grammar.production rules rule)
      (Grammar.production others rule) := by
  cases rule with
  | arithmetic => exact h.arithmetic
  | logicTerm => exact h.logicTerm
  | logic => exact h.logic
  | block => exact h.block

end RulesDescend

/-! ## Rules -/

/-- A rule that has not ended, and is low enough to have, was not started yet. -/
theorem Orderly.mark {height : Nat} {state : State} (h : Orderly height state) {rule : Nonterminal}
    (hrecall : state.«recall?» rule = none)
    (hlow : startHeight state.tokens.size (rule, state.index) < height) :
    Orderly (startHeight state.tokens.size (rule, state.index)) (state.mark rule) where
  index_le := h.index_le
  start_le start hmem := by
    obtain rfl | hmem := List.mem_cons.1 hmem
    · exact h.index_le
    · exact h.start_le start hmem
  nodup := by
    refine List.nodup_cons.2 ⟨fun hmem => ?_, h.nodup⟩
    have hended : (state.«recall?» rule).isSome = true := h.ended _ hmem hlow
    rw [hrecall] at hended
    cases hended
  ended start hmem hlower := by
    obtain rfl | hmem := List.mem_cons.1 hmem
    · exact (Nat.lt_irrefl _ hlower).elim
    · exact h.ended start hmem (Nat.lt_trans hlower hlow)
  stored := h.stored

/-- A rule whose body passes lower rules only has ended when its result is stored. -/
theorem Passes.store {height : Nat} {state after : State} {rule : Nonterminal}
    {result : Except ParseError rule.Tree} (hstate : Orderly height state)
    (hlow : startHeight state.tokens.size (rule, state.index) < height)
    (h : Passes (startHeight state.tokens.size (rule, state.index)) (state.mark rule) after)
    (hconsumes : ∀ value, result = .ok value → state.index + 1 ≤ after.index) :
    Passes height state (after.store rule state.index result) := by
  have htokens : after.tokens = state.tokens := h.tokens
  have hstarted : ∀ start ∈ after.marks, start ∈ state.marks ∨ start = (rule, state.index)
      ∨ startHeight state.tokens.size start
        < startHeight state.tokens.size (rule, state.index) := by
    intro start hmem
    obtain hmarked | hlower := h.started start hmem
    · exact (List.mem_cons.1 hmarked).elim (fun heq => .inr (.inl heq)) .inl
    · exact .inr (.inr hlower)
  have hended : ∀ start ∈ after.marks, startHeight state.tokens.size start < height →
      (after.store rule state.index result).HasEnded start := by
    intro start hmem hlower
    obtain hbefore | rfl | hduring := hstarted start hmem
    · exact (h.keeps start (hstate.ended start hbefore hlower)).store _ _ _
    · exact ParseState.hasEnded_store after _ _ result
    · exact (h.orderly.ended start hmem (htokens ▸ hduring)).store _ _ _
  refine ⟨htokens, fun start hbefore => (h.keeps start hbefore).store _ _ _, ?_,
    h.orderly.index_le, h.orderly.start_le, h.orderly.nodup, fun start hmem hlower =>
      hended start hmem (htokens ▸ hlower),
    ParseState.forall_recall?_store ⟨h.orderly.index_le, hconsumes⟩ h.orderly.stored⟩
  intro start hmem
  obtain hmem | rfl | hlower := hstarted start hmem
  · exact .inl hmem
  · exact .inr hlow
  · exact .inr (Nat.lt_trans hlower hlow)

/-- Unfolded rules start lower rules only, and never come to the bottom if there are enough. -/
theorem descends_unfolded (bottom bottom' : Rules) (depth : Nat) :
    RulesDescend depth (Grammar.unfolded bottom depth) (Grammar.unfolded bottom' depth) := by
  induction depth with
  | zero =>
    intro rule height state hlimit hheight _
    omega
  | succ depth ih =>
    intro rule height state hlimit hheight horderly
    have hlow : startHeight state.tokens.size (rule, state.index) < height := hheight
    unfold Grammar.unfolded
    cases hrecall : state.«recall?» rule with
    | some stored =>
      obtain ⟨result, stop⟩ := stored
      have hstored := horderly.stored rule state.index result stop hrecall
      exact ⟨rfl, (Passes.refl horderly).restore hstored.1, hstored.2⟩
    | none =>
      have hlimit' : startHeight state.tokens.size (rule, state.index) ≤ depth := by omega
      obtain ⟨heq, hpasses, hconsumes⟩ := ih.production rule _ (state.mark rule) hlimit'
        (Nat.le_refl _) (horderly.mark hrecall hlow)
      simp only [Parser.runBody, heq, true_and]
      exact ⟨hpasses.store horderly hlow hconsumes, hconsumes⟩

/-- The rules of the parser start lower rules only. -/
theorem descends_rules (bottom : Rules) (depth : Nat) :
    RulesDescend depth (Grammar.rules .stored depth) (Grammar.unfolded bottom depth) := by
  rw [Grammar.rules_eq_unfolded]
  exact descends_unfolded _ bottom depth

/-! ## Whole inputs -/

/-- The rules of the grammar. -/
def Nonterminal.all : List Nonterminal := [.arithmetic, .logic, .logicTerm, .block]

theorem Nonterminal.mem_all (rule : Nonterminal) : rule ∈ all := by
  cases rule <;> decide

section Counting

variable {starts : List (Nonterminal × Nat)}

/-- Of different starts at one index there are as many as rules. -/
theorem length_filter_index_le (h : starts.Nodup) (index : Nat) :
    (starts.filter (·.2 = index)).length ≤ 4 := by
  have hsubset : starts.filter (·.2 = index) ⊆ Nonterminal.all.map (·, index) := by
    rintro ⟨rule, place⟩ hmem
    obtain rfl : place = index := of_decide_eq_true (List.mem_filter.1 hmem).2
    exact List.mem_map_of_mem rule.mem_all
  exact (List.Nodup.subperm (h.filter _) hsubset).length_le

/-- Of different starts there are as many as rules at each index. -/
theorem length_starts_le (h : starts.Nodup) {size : Nat} (hle : ∀ start ∈ starts, start.2 ≤ size) :
    starts.length ≤ 4 * (size + 1) := by
  have hsubset : starts ⊆ Nonterminal.all ×ˢ List.range (size + 1) := by
    rintro ⟨rule, place⟩ hmem
    exact List.mem_product.2 ⟨rule.mem_all, List.mem_range.2 (Nat.lt_succ_of_le (hle _ hmem))⟩
  have hlength := (List.Nodup.subperm h hsubset).length_le
  rwa [List.length_product, List.length_range] at hlength

end Counting

/-- Nothing was started before the first token. -/
theorem orderly_start (height : Nat) (tokens : List Token) : Orderly height (.start tokens) where
  index_le := Nat.zero_le _
  start_le := nofun
  nodup := .nil
  ended := nofun
  stored rule start result stop hrecall := by
    simp [ParseState.start, ParseState.«recall?», ParseState.restore] at hrecall

namespace Grammar

/-- Where rules are started while all tokens are read by a production, the latest first. -/
def starts (start : Rules → Production α) (tokens : List Token) : List (Nonterminal × Nat) :=
  ((start (rules .stored (depthFor tokens))).complete (.start tokens)).2.marks

/--
All tokens are read in the same way however deep the rules are unfolded and whatever stands below
them, and no rule is started twice at one index.
-/
structure StartsOnce (start : Rules → Production α) (tokens : List Token) : Prop where
  ends (bottom : Rules) {depth : Nat} (h : depthFor tokens ≤ depth) :
    (start (unfolded bottom depth)).complete (.start tokens)
      = (start (rules .stored (depthFor tokens))).complete (.start tokens)
  nodup : (starts start tokens).Nodup
  length_filter_le (index : Nat) : ((starts start tokens).filter (·.2 = index)).length ≤ 4
  length_le : (starts start tokens).length ≤ 4 * (tokens.length + 1)

/-- A production that starts lower rules only starts no rule twice. -/
theorem StartsOnce.of_descends {start : Rules → Production α} {least : Nat}
    (hstart : ∀ {limit : Nat} {rules others : Rules}, RulesDescend limit rules others →
      Descends limit 4 least (start rules) (start others)) (tokens : List Token) :
    StartsOnce start tokens := by
  have hwhole (bottom : Rules) :=
    (hstart (descends_rules bottom (depthFor tokens))).complete (4 * tokens.length + 4)
      (.start tokens) (by rw [depthFor]; omega) (Nat.le_refl _) (orderly_start _ tokens)
  have hpasses := (hwhole (rules .stored 0)).2.passes
  have horderly := hpasses.orderly
  refine ⟨fun bottom depth h => ?_, horderly.nodup, length_filter_index_le horderly.nodup,
    length_starts_le horderly.nodup fun started hmem => ?_⟩
  · obtain ⟨more, rfl⟩ := Nat.exists_eq_add_of_le h
    rw [unfolded_add]
    exact (hwhole (unfolded bottom more)).1
  · have hplace := horderly.start_le started hmem
    rw [hpasses.tokens] at hplace
    exact hplace

/--
Expressions, blocks and programs are read without starting a rule twice at one index, neither while
it runs nor after its result was stored.  So there are four starts at an index at most, and reading
ends without coming to the bottom of the rules.
-/
theorem startsOnce (tokens : List Token) :
    StartsOnce expression tokens ∧ StartsOnce (· .block) tokens ∧ StartsOnce program tokens :=
  ⟨.of_descends RulesDescend.expression tokens, .of_descends (fun h => h.behind .block) tokens,
    .of_descends RulesDescend.program tokens⟩

end Grammar

end WhileLang

import WhileLang.Grammar
import WhileLang.Proofs.Grammar.Follow
import WhileLang.Proofs.Token.Reserved

/-!
# What parsers read

A parser reads a language if whatever it yields is spelled by what it consumed, and if it yields
whatever is spelled by lexemes at the cursor, provided that the lexemes behind them may follow.
The second part makes up for choices that are never taken back.

Main definitions:

- Functions {lit}`Nonterminal.phrase` and {lit}`Nonterminal.follow`: the language of a rule, and
  what may come behind it.
- Predicates {lit}`Settles`, {lit}`Remembers` and {lit}`Reads`.

Main results:

- Theorems {lit}`Reads.andThen`, {lit}`Reads.skipWord` and {lit}`Reads.afterWord`: one parser after
  another.
- Theorem {lit}`Reads.run_eq_ok_iff`: whole inputs.
-/

namespace WhileLang

/-- The phrases that a rule reads. -/
def Nonterminal.phrase : (rule : Nonterminal) → Language rule.Tree
  | .arithmetic => Phrase.Arithmetic
  | .logic => Phrase.Logic
  | .logicTerm => Phrase.LogicTerm
  | .block => Phrase.Block

/-- What may follow the phrases of a rule. -/
def Nonterminal.follow : Nonterminal → List Lexeme → Prop
  | .arithmetic => StopsBefore Lexeme.continuesArithmetic
  | .logic => StopsBefore Lexeme.continuesLogic
  | .logicTerm => StopsBefore Lexeme.continuesComparison
  | .block => StopsBlock

/-! ## Results that settle a language -/

namespace Grammar

/-- The states of a parse. -/
abbrev State : Type :=
  ParseState Nonterminal fun rule => Except ParseError rule.Tree

end Grammar

open Grammar (Production State)

/-- The lexemes from the cursor on. -/
def ParseState.lexemes {ρ : Type} {Stored : ρ → Type} (state : ParseState ρ Stored) : List Lexeme :=
  state.remaining.map (·.lexeme)

/-- A result with the index behind it is right about the lexemes from an index on. -/
structure Settles {α : Type} (language : Language α) (follow : List Lexeme → Prop)
    (lexemes : List Lexeme) (start : Nat) (result : Except ParseError α) (stop : Nat) : Prop where
  sound {value : α} : result = .ok value →
    ∃ u rest, lexemes = u ++ rest ∧ stop = start + u.length ∧ language u value
  complete {u rest : List Lexeme} {value : α} : language u value → lexemes = u ++ rest →
    follow rest → result = .ok value ∧ stop = start + u.length

/-- All results that are stored are right. -/
def Remembers (state : State) : Prop :=
  ∀ (rule : Nonterminal) (start : Nat) (result : Except ParseError rule.Tree) (stop : Nat),
    (state.restore start).«recall?» rule = some (result, stop) →
      Settles rule.phrase rule.follow (state.restore start).lexemes start result stop

/-- A result and the state it was left in are right about the state before. -/
structure RightAbout {α : Type} (language : Language α) (follow : List Lexeme → Prop)
    (state : State) (result : Except ParseError α) (after : State) : Prop where
  tokens : after.tokens = state.tokens
  remembers : Remembers after
  settles : Settles language follow state.lexemes state.index result after.index

/-- A parser reads a language where at most a number of lexemes is left. -/
def Reads {α : Type} (left : Nat) (parser : Production α) (language : Language α)
    (follow : List Lexeme → Prop) : Prop :=
  ∀ state : State, Remembers state → state.lexemes.length ≤ left →
    RightAbout language follow state (parser state).1 (parser state).2

namespace ParseState

variable {ρ : Type} {Stored : ρ → Type} {state after : ParseState ρ Stored}

theorem lexemes_eq_drop (state : ParseState ρ Stored) :
    state.lexemes = (state.tokens.toList.map (·.lexeme)).drop state.index := by
  rw [lexemes, remaining, List.map_drop]

/-- Behind the lexemes that were consumed are the others. -/
theorem lexemes_after {u rest : List Lexeme} (htokens : after.tokens = state.tokens)
    (hsplit : state.lexemes = u ++ rest) (hindex : after.index = state.index + u.length) :
    after.lexemes = rest := by
  rw [lexemes_eq_drop] at hsplit ⊢
  rw [htokens, hindex, ← List.drop_drop, hsplit, List.drop_left]

theorem peek?_map_lexeme (state : ParseState ρ Stored) :
    state.peek?.map (·.lexeme) = state.lexemes.head? := by
  rw [lexemes_eq_drop, List.head?_drop, List.getElem?_map, peek?, Array.getElem?_toList]

end ParseState

/-- What is stored does not depend on the cursor, on failures or on marks. -/
theorem Remembers.of_memory {state other : State} (h : Remembers state)
    (htokens : other.tokens = state.tokens) (hmemory : other.memory = state.memory) :
    Remembers other := by
  intro rule start result stop hrecall
  have hstate : (other.restore start).«recall?» rule = (state.restore start).«recall?» rule := by
    simp only [ParseState.«recall?», ParseState.restore, hmemory]
  have hlexemes : (other.restore start).lexemes = (state.restore start).lexemes := by
    simp only [ParseState.lexemes_eq_drop, ParseState.restore, htokens]
  rw [hstate] at hrecall
  rw [hlexemes]
  exact h rule start result stop hrecall

/-- A symbol is the only lexeme of its class and text. -/
theorem Lexeme.eq_reserved {lexeme : Lexeme} {word : Reserved} (htag : lexeme.tag = .symbol)
    (htext : lexeme.text = word.text) : lexeme = .reserved word := by
  cases lexeme with
  | reserved other => rw [Reserved.text_injective htext]
  | identifier name => cases htag
  | integer digits => cases htag

/-- The test for a symbol accepts its reserved word. -/
theorem Language.satisfying_word_iff {word : Reserved}
    (hword : (Lexeme.reserved word).tag = .symbol) {u : List Lexeme} {text : String} :
    Language.satisfying (fun lexeme => lexeme.tag = .symbol && lexeme.text = word.text) u text ↔
      Language.word word u text := by
  constructor
  · rintro ⟨lexeme, rfl, haccepts, rfl⟩
    rw [Bool.and_eq_true, decide_eq_true_eq, decide_eq_true_eq] at haccepts
    rw [Lexeme.eq_reserved haccepts.1 haccepts.2]
    exact ⟨rfl, rfl⟩
  · rintro ⟨rfl, rfl⟩
    refine ⟨.reserved word, rfl, ?_, rfl⟩
    rw [Bool.and_eq_true, decide_eq_true_eq, decide_eq_true_eq]
    exact ⟨hword, rfl⟩

/-! ## Combinators -/

section

variable {α β : Type} {left : Nat} {language : Language α} {follow : List Lexeme → Prop}

namespace Settles

variable {lexemes : List Lexeme} {start stop : Nat} {result : Except ParseError α}

theorem congr {other : Language α} (h : Settles language follow lexemes start result stop)
    (hsame : ∀ u value, language u value ↔ other u value) :
    Settles other follow lexemes start result stop where
  sound hresult := by
    obtain ⟨u, rest, hsplit, hstop, hvalue⟩ := h.sound hresult
    exact ⟨u, rest, hsplit, hstop, (hsame _ _).1 hvalue⟩
  complete hvalue := h.complete ((hsame _ _).2 hvalue)

end Settles

namespace Reads

variable {parser : Production α}

theorem mono {fewer : Nat} {follow' : List Lexeme → Prop} (h : Reads left parser language follow)
    (hleft : fewer ≤ left) (hfollow : ∀ rest, follow' rest → follow rest) :
    Reads fewer parser language follow' := by
  intro state hremembers hlength
  obtain ⟨htokens, hafter, hsettles⟩ := h state hremembers (Nat.le_trans hlength hleft)
  exact ⟨htokens, hafter, hsettles.sound,
    fun hvalue hsplit hrest => hsettles.complete hvalue hsplit (hfollow _ hrest)⟩

theorem congr {other : Language α} (h : Reads left parser language follow)
    (hsame : ∀ u value, language u value ↔ other u value) : Reads left parser other follow := by
  intro state hremembers hlength
  obtain ⟨htokens, hafter, hsettles⟩ := h state hremembers hlength
  exact ⟨htokens, hafter, hsettles.congr hsame⟩

/-- A value for nothing. -/
theorem succeed (value : α) : Reads left (Parser.succeed value) (.pure value) follow := by
  intro state hremembers _
  refine ⟨rfl, hremembers, ?_, ?_⟩
  · rintro other heq
    cases heq
    exact ⟨[], state.lexemes, rfl, rfl, rfl, rfl⟩
  · rintro u rest other ⟨rfl, rfl⟩ _ _
    exact ⟨rfl, rfl⟩

/-- One parser after another, if what the second one reads may follow the first. -/
theorem andThen {follow' : List Lexeme → Prop} {next : α → Production β} {others : α → Language β}
    (hfirst : Reads left parser language follow)
    (hnext : ∀ u value, language u value → u.length ≤ left →
      Reads (left - u.length) (next value) (others value) follow')
    (hfollow : ∀ value v result rest, others value v result → follow' rest → follow (v ++ rest)) :
    Reads left (parser.andThen next) (language.bind others) follow' := by
  intro state hremembers hlength
  have hone := hfirst state hremembers hlength
  unfold Parser.andThen
  rcases hparse : parser state with ⟨result, middle⟩
  rw [hparse] at hone
  cases result with
  | error error =>
    refine ⟨hone.tokens, hone.remembers, nofun, ?_⟩
    rintro _ rest result ⟨u, v, value, rfl, hvalue, hresult⟩ hsplit hrest
    rw [List.append_assoc] at hsplit
    have hcomplete := hone.settles.complete hvalue hsplit (hfollow _ _ _ _ hresult hrest)
    cases hcomplete.1
  | ok value =>
    obtain ⟨u, behind, hsplit, hstop, hvalue⟩ := hone.settles.sound rfl
    have hmiddle : middle.lexemes = behind := ParseState.lexemes_after hone.tokens hsplit hstop
    rw [hsplit, List.length_append] at hlength
    have htwo := hnext u value hvalue (by omega) middle hone.remembers (by rw [hmiddle]; omega)
    refine ⟨htwo.tokens.trans hone.tokens, htwo.remembers, ?_, ?_⟩
    · intro result hok
      obtain ⟨v, rest, hbehind, hend, hresult⟩ := htwo.settles.sound hok
      refine ⟨u ++ v, rest, ?_, ?_, u, v, value, rfl, hvalue, hresult⟩
      · rw [hsplit, ← hmiddle, hbehind, List.append_assoc]
      · rw [hend, hstop, List.length_append, Nat.add_assoc]
    · rintro _ rest result ⟨u', v, value', rfl, hvalue', hresult⟩ hwhole hrest
      rw [List.append_assoc] at hwhole
      obtain ⟨heq, hlen⟩ := hone.settles.complete hvalue' hwhole (hfollow _ _ _ _ hresult hrest)
      cases heq
      have hsame : u'.length = u.length := by omega
      obtain ⟨rfl, rfl⟩ := List.append_inj (hwhole.symm.trans hsplit) hsame
      obtain ⟨hok, hend⟩ := htwo.settles.complete hresult hmiddle hrest
      refine ⟨hok, ?_⟩
      rw [hend, hstop, List.length_append, Nat.add_assoc]

theorem map (h : Reads left parser language follow) (f : α → β) :
    Reads left (parser.map f) (language.map f) follow := by
  refine (h.andThen (fun _ value _ _ => succeed (f value)) ?_).congr
    fun _ _ => Language.bind_pure_iff
  rintro value _ _ rest ⟨rfl, _⟩ hrest
  exact hrest

theorem seq {second : Production β} {others : Language β} {follow' : List Lexeme → Prop}
    (hfirst : Reads left parser language follow)
    (hsecond : ∀ u value, language u value → u.length ≤ left →
      Reads (left - u.length) second others follow')
    (hfollow : ∀ v value rest, others v value → follow' rest → follow (v ++ rest)) :
    Reads left (parser.seq second) (language.seq others) follow' :=
  hfirst.andThen (fun u value hvalue hlength => (hsecond u value hvalue hlength).map _)
    fun _ v _ rest ⟨other, hother, _⟩ hrest => hfollow v other rest hother hrest

/-- The failures of a parser may be named. -/
theorem label (h : Reads left parser language follow) (name : String) :
    Reads left (parser.label name) language follow := by
  intro state hremembers hlength
  obtain ⟨htokens, hafter, hsettles⟩ := h state hremembers hlength
  unfold Parser.label
  rcases hparse : parser state with ⟨result, after⟩
  rw [hparse] at htokens hafter hsettles
  cases result with
  | ok value => exact ⟨htokens, hafter, hsettles⟩
  | error error =>
    have hfails : ∀ other : ParseError,
        Settles language follow state.lexemes state.index (.error other) after.index := fun other =>
      ⟨nofun, fun hvalue hsplit hrest => nomatch (hsettles.complete hvalue hsplit hrest).1⟩
    dsimp only
    split
    · exact ⟨htokens, hafter.of_memory rfl rfl, hfails _⟩
    · exact ⟨htokens, hafter, hfails _⟩

/-! ### Single lexemes -/

/-- A lexeme that passes a test, whatever follows. -/
theorem satisfy (accepts : Lexeme → Bool) (expected : String) :
    Reads left (Parser.satisfy accepts expected) (.satisfying accepts) follow := by
  intro state hremembers _
  have hpeek := state.peek?_map_lexeme
  unfold Parser.satisfy
  cases hhead : state.peek? with
  | none =>
    rw [hhead] at hpeek
    refine ⟨rfl, hremembers.of_memory rfl rfl, nofun, ?_⟩
    rintro _ rest text ⟨lexeme, rfl, _⟩ hsplit _
    rw [hsplit] at hpeek
    cases hpeek
  | some token =>
    rw [hhead] at hpeek
    obtain ⟨behind, hbehind⟩ := List.head?_eq_some_iff.1 hpeek.symm
    have hadvance : state.advance = state.restore (state.index + 1) := by
      have hnext : state.hasNext = true := by
        rw [ParseState.hasNext, decide_eq_true_eq]
        exact (Array.getElem?_eq_some_iff.1 hhead).1
      rw [ParseState.advance, if_pos hnext]
    by_cases haccepts : accepts token.lexeme = true
    · rw [Option.filter_some_pos (by exact haccepts), hadvance]
      refine ⟨rfl, hremembers.of_memory rfl rfl, ?_, ?_⟩
      · rintro _ ⟨⟩
        exact ⟨[token.lexeme], behind, hbehind, rfl, token.lexeme, rfl, haccepts, rfl⟩
      · rintro _ rest text ⟨lexeme, rfl, _, rfl⟩ hsplit _
        rw [hbehind] at hsplit
        cases hsplit
        exact ⟨rfl, rfl⟩
    · rw [Option.filter_some_neg (by simpa using haccepts)]
      refine ⟨rfl, hremembers.of_memory rfl rfl, nofun, ?_⟩
      rintro _ rest text ⟨lexeme, rfl, haccepted, rfl⟩ hsplit _
      rw [hbehind] at hsplit
      cases hsplit
      exact absurd haccepted haccepts

/-- A symbol, which is a reserved word that is no truth value. -/
theorem word (word : Reserved) (hword : (Lexeme.reserved word).tag = .symbol) :
    Reads left (Parser.literal word.text) (.word word) follow :=
  (satisfy _ _).congr fun _ _ => Language.satisfying_word_iff hword

/-- A reserved word behind what is read. -/
theorem skipWord (h : Reads left parser language follow) (word : Reserved)
    (hword : (Lexeme.reserved word).tag = .symbol)
    (hfollow : ∀ rest, follow (.reserved word :: rest)) {follow' : List Lexeme → Prop} :
    Reads left (parser.skip (Parser.literal word.text)) (language.before word) follow' := by
  refine (h.andThen (fun _ value _ _ => (Reads.word word hword).map fun _ => value) ?_).congr
    fun _ _ => Language.bind_word_iff
  rintro value _ _ rest ⟨_, ⟨rfl, _⟩, _⟩ _
  exact hfollow rest

/-- A reserved word before what is read. -/
theorem afterWord (word : Reserved) (hword : (Lexeme.reserved word).tag = .symbol)
    (h : 0 < left → Reads (left - 1) parser language follow) :
    Reads left ((Parser.literal word.text).skipLeft parser) (language.behind word) follow := by
  have hnext : ∀ u text, Language.word word u text → u.length ≤ left →
      Reads (left - u.length) parser language follow := by
    rintro _ _ ⟨rfl, _⟩ hlength
    exact h hlength
  have hfirst : Reads left (Parser.literal word.text) (Language.word word) fun _ => True :=
    Reads.word word hword
  exact (hfirst.andThen hnext fun _ _ _ _ _ _ => trivial).congr fun _ _ => Language.word_bind_iff

/-! ### Whole inputs -/

/-- A parser that has to read everything yields what all of the lexemes spell, and only that. -/
theorem run_eq_ok_iff {tokens : List Token} {value : α}
    (h : Reads tokens.length parser language follow) (hfollow : follow []) :
    parser.complete.run tokens = .ok value ↔ language (tokens.map (·.lexeme)) value := by
  have hlexemes : (ParseState.start tokens : State).lexemes = tokens.map (·.lexeme) := rfl
  have hempty : Remembers (ParseState.start tokens) := by
    intro rule start result stop hrecall
    simp [ParseState.start, ParseState.«recall?», ParseState.restore] at hrecall
  obtain ⟨htokens, -, hsettles⟩ :=
    h (.start tokens) hempty (Nat.le_of_eq (by rw [hlexemes, List.length_map]))
  have hend : ∀ after : State, after.tokens = tokens.toArray →
      (after.hasNext = false ↔ tokens.length ≤ after.index) := by
    intro after hafter
    rw [ParseState.hasNext, hafter, decide_eq_false_iff_not, List.size_toArray, Nat.not_lt]
  unfold Parser.run Parser.complete Parser.andThen
  rcases hparse : parser (.start tokens) with ⟨result, after⟩
  rw [hparse, hlexemes] at hsettles
  rw [hparse] at htokens
  constructor
  · intro hrun
    cases result with
    | error error => cases hrun
    | ok first =>
      obtain ⟨u, rest, hsplit, hstop, hvalue⟩ := hsettles.sound rfl
      cases hnext : after.hasNext with
      | true => simp [hnext, Parser.reject] at hrun
      | false =>
        simp only [hnext, Bool.false_eq_true, if_false, Except.ok.injEq] at hrun
        have hall : tokens.length ≤ after.index := (hend after htokens).1 hnext
        have hstop : after.index = u.length := hstop.trans (Nat.zero_add _)
        have hlength := congrArg List.length hsplit
        rw [List.length_map, List.length_append] at hlength
        have hrest : rest = [] := List.length_eq_zero_iff.1 (by omega)
        rw [hsplit, hrest, List.append_nil, ← hrun]
        exact hvalue
  · intro hvalue
    obtain ⟨hok, hstop⟩ := hsettles.complete hvalue (List.append_nil _).symm hfollow
    have hstop : after.index = (tokens.map (·.lexeme)).length := hstop.trans (Nat.zero_add _)
    rw [List.length_map] at hstop
    have hnext : after.hasNext = false := (hend after htokens).2 (Nat.le_of_eq hstop.symm)
    dsimp only at hok
    simp [hok, hnext]

end Reads

end

end WhileLang

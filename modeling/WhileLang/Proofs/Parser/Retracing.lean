import WhileLang.Proofs.Parser.Accounts
import WhileLang.Proofs.Parser.Exactness

/-!
# Parsers that are retraced

A run that stores results is compared with runs that store none.  Those read the same tokens, and
maybe more behind them.  Either they leave the same trace, or the first one met the end of its
tokens expecting the class of the lexeme that comes there.

Main definitions:

- Predicates {lit}`Trace.Meets` and {lit}`Trace.GoesOn`: the two ways out.
- Function {lit}`rerun`: the rules that store nothing, to any depth that is {lit}`Deep` enough.
- Predicate {lit}`Replayable`: all that is stored has a trace, the failures of which are absorbed.
- Predicate {lit}`Retraces`: a parser keeps that, and leaves such a trace itself.

Main results:

- Theorems {lit}`Retraces.andThen`, {lit}`Retraces.or`, {lit}`Retraces.optional`,
  {lit}`Retraces.label`, {lit}`Retraces.satisfy` and {lit}`Retraces.chainLeft`: combinators are
  retraced by combinators.
-/

namespace WhileLang

open Grammar (Production Rules State)

variable {α β ι κ : Type} {tokens more : List Token}

/-! ## Traces on more tokens -/

/-- A failure at the end of the tokens expects the class of the first one that comes behind. -/
def Trace.Meets (trace : Trace α) (tokens more : List Token) : Prop :=
  ∃ failure ∈ trace.failures, failure.index = tokens.length ∧
    ∃ token, more.head? = some token ∧ token.lexeme.className ∈ failure.expected

/-- A trace is that of some parsers on more tokens, too, unless it met the first of them. -/
def Trace.GoesOn (trace : Trace α) (tokens more : List Token) (index : Nat)
    (reruns : ι → Production α) : Prop :=
  trace.Meets tokens more ∨ ∀ i, HasTrace (tokens ++ more).toArray index (reruns i) trace

namespace Trace.GoesOn

variable {trace : Trace α} {index : Nat} {reruns : ι → Production α}

/-- Whoever met the first further token did so in a longer trace. -/
theorem map {trace' : Trace β} {index' : Nat} {reruns' : κ → Production β}
    (h : trace.GoesOn tokens more index reruns) (hfailures : trace.failures ⊆ trace'.failures)
    (hruns : (∀ i, HasTrace (tokens ++ more).toArray index (reruns i) trace) →
      ∀ k, HasTrace (tokens ++ more).toArray index' (reruns' k) trace') :
    trace'.GoesOn tokens more index' reruns' :=
  h.imp (fun ⟨failure, hmem, hmeets⟩ => ⟨failure, hfailures hmem, hmeets⟩) hruns

/-- Two traces go on together. -/
theorem map₂ {γ μ : Type} {trace' : Trace β} {trace'' : Trace γ} {index' index'' : Nat}
    {reruns' : κ → Production β} {reruns'' : μ → Production γ}
    (h : trace.GoesOn tokens more index reruns) (h' : trace'.GoesOn tokens more index' reruns')
    (hfailures : trace.failures ++ trace'.failures ⊆ trace''.failures)
    (hruns : (∀ i, HasTrace (tokens ++ more).toArray index (reruns i) trace) →
      (∀ k, HasTrace (tokens ++ more).toArray index' (reruns' k) trace') →
        ∀ m, HasTrace (tokens ++ more).toArray index'' (reruns'' m) trace'') :
    trace''.GoesOn tokens more index'' reruns'' := by
  rw [List.append_subset] at hfailures
  rcases h with ⟨failure, hmem, hmeets⟩ | h
  · exact .inl ⟨failure, hfailures.1 hmem, hmeets⟩
  · exact h'.map hfailures.2 (hruns h)

/-- Where no more tokens come behind, there is none to be met. -/
theorem of_nil (h : trace.GoesOn tokens [] index reruns) (i : ι) :
    HasTrace tokens.toArray index (reruns i) trace := by
  rcases h with ⟨_, _, _, _, hhead, _⟩ | hruns
  · cases hhead
  · rw [List.append_nil] at hruns
    exact hruns i

end Trace.GoesOn

/-! ## What is stored -/

/-- Depths from a least one on. -/
structure Deep (least : Nat) where
  depth : Nat
  enough : least ≤ depth

/-- What is deep enough is so for less. -/
def Deep.relax {least fewer : Nat} (deep : Deep least) (h : fewer ≤ least) : Deep fewer :=
  ⟨deep.depth, Nat.le_trans h deep.enough⟩

/-- Rules that store nothing, run to some depth. -/
def rerun {least : Nat} (deep : Deep least) : Rules :=
  Grammar.rules .rerun deep.depth

/-- A depth that is enough for a rule where a number of tokens is left. -/
def Nonterminal.depthFor (rule : Nonterminal) (left : Nat) : Nat :=
  4 * left + rule.rank + 1

/-- A stored result has a trace.  To replay it records nothing, as all its failures are absorbed. -/
structure Replays (tokens more : List Token) (furthest : Option ParseError) (rule : Nonterminal)
    (start : Nat) (result : Except ParseError rule.Tree) (stop : Nat) (trace : Trace rule.Tree) :
    Prop where
  result : result = trace.result.mapError (·.report tokens.toArray)
  stop : stop = trace.stop
  accounts : trace.Accounts rule.phrase ((tokens.map (·.lexeme)).drop start) start
  absorbs : ∀ failure ∈ trace.failures, Absorbs furthest (failure.report tokens.toArray)
  goesOn : trace.GoesOn tokens more start
    fun deep : Deep (rule.depthFor (tokens.length + more.length - start)) => rerun deep rule

/-- All that is stored has a trace. -/
def Replayable (tokens more : List Token) (state : State) : Prop :=
  ∀ (rule : Nonterminal) (start : Nat) (result : Except ParseError rule.Tree) (stop : Nat),
    (state.restore start).«recall?» rule = some (result, stop) →
      ∃ trace, Replays tokens more state.furthest rule start result stop trace

/-- What is stored does not depend on the cursor or on marks, and stays when more is recorded. -/
theorem Replayable.of_memory {state other : State} (h : Replayable tokens more state)
    (hmemory : other.memory = state.memory)
    (hfurthest : ∀ error, Absorbs state.furthest error → Absorbs other.furthest error) :
    Replayable tokens more other := by
  intro rule start result stop hrecall
  have hstate : (other.restore start).«recall?» rule = (state.restore start).«recall?» rule := by
    simp only [ParseState.«recall?», ParseState.restore, hmemory]
  rw [hstate] at hrecall
  obtain ⟨trace, htrace⟩ := h rule start result stop hrecall
  exact ⟨trace, htrace.result, htrace.stop, htrace.accounts,
    fun failure hmem => hfurthest _ (htrace.absorbs failure hmem), htrace.goesOn⟩

theorem Replayable.restore {state : State} (h : Replayable tokens more state) (index : Nat) :
    Replayable tokens more (state.restore index) :=
  h.of_memory rfl fun _ => id

theorem Replayable.record {state : State} (h : Replayable tokens more state) (error : ParseError) :
    Replayable tokens more (state.record error) :=
  h.of_memory rfl fun _ habsorbs => habsorbs.further error

/-! ## Parsers that are retraced -/

/-- A state on some tokens, where at most a number of tokens is left if more come behind them. -/
structure Ready (tokens more : List Token) (left : Nat) (state : State) : Prop where
  reads : state.tokens = tokens.toArray
  index : state.index ≤ tokens.length
  left : tokens.length + more.length ≤ state.index + left
  replayable : Replayable tokens more state

/-- A trace of what came out of a state, right by a language, that others leave as well. -/
structure Retraced (tokens more : List Token) (reruns : ι → Production α) (language : Language α)
    (state : State) (outcome : Except ParseError α × State) (trace : Trace α) : Prop where
  describes : trace.Describes state outcome
  replayable : Replayable tokens more outcome.2
  accounts : trace.Accounts language state.lexemes state.index
  goesOn : trace.GoesOn tokens more state.index reruns

/-- A parser is retraced by others where at most a number of tokens is left. -/
def Retraces (tokens more : List Token) (left : Nat) (parser : Production α)
    (reruns : ι → Production α) (language : Language α) : Prop :=
  ∀ state : State, Ready tokens more left state →
    ∃ trace, Retraced tokens more reruns language state (parser state) trace

theorem Ready.lexemes {left : Nat} {state : State} (h : Ready tokens more left state) :
    state.lexemes = (tokens.map (·.lexeme)).drop state.index := by
  rw [ParseState.lexemes_eq_drop, h.reads]

theorem Ready.mono {left fewer : Nat} {state : State} (h : Ready tokens more fewer state)
    (hfewer : fewer ≤ left) : Ready tokens more left state :=
  { h with left := Nat.le_trans h.left (Nat.add_le_add_left hfewer _) }

namespace Retraced

variable {left : Nat} {reruns : ι → Production α} {language : Language α} {state : State}
variable {outcome : Except ParseError α × State} {trace : Trace α}

/-- Behind what was consumed fewer tokens are left. -/
theorem ready_behind (h : Retraced tokens more reruns language state outcome trace)
    (hready : Ready tokens more left state) {u rest : List Lexeme}
    (hsplit : state.lexemes = u ++ rest) (hstop : trace.stop = state.index + u.length) :
    u.length ≤ left ∧ outcome.2.lexemes = rest ∧ Ready tokens more (left - u.length) outcome.2 := by
  have hindex : outcome.2.index = state.index + u.length := h.describes.index.trans hstop
  have hlexemes : outcome.2.lexemes = rest :=
    ParseState.lexemes_after h.describes.tokens hsplit hindex
  have hlength := congrArg List.length hsplit
  rw [hready.lexemes, List.length_drop, List.length_map, List.length_append] at hlength
  have hbefore := hready.index
  have hleft := hready.left
  refine ⟨by omega, hlexemes, h.describes.tokens.trans hready.reads, ?_, ?_, h.replayable⟩
  · omega
  · omega

/-- Back at the start everything is left. -/
theorem ready_back (h : Retraced tokens more reruns language state outcome trace)
    (hready : Ready tokens more left state) :
    Ready tokens more left (outcome.2.restore state.index) where
  reads := h.describes.tokens.trans hready.reads
  index := hready.index
  left := hready.left
  replayable := h.replayable.restore state.index

section Chains

variable {item : Production α} {separator : Production (α → α → α)} {reitems : ι → Production α}
  {reseparators : ι → Production (α → α → α)} {items : Language α}
  {separators : Language (α → α → α)} {rounds least : Nat} {folded : α} {round : Trace α}

/-- The rounds of a chain end where one fails. -/
theorem chainFrom_stop {failure : Failure}
    (h : Retraced tokens more
      (fun i => (reseparators i).andThen fun combine => (reitems i).map (combine folded))
      (separators.bind fun combine => items.map (combine folded)) state
      ((separator.andThen fun combine => item.map (combine folded)) state) round)
    (hfails : round.result = .error failure) :
    Retraced tokens more
      (fun run : ι × Deep (least + 1) =>
        Parser.chainFrom (reitems run.1) (reseparators run.1) run.2.depth folded)
      (ChainFrom items separators folded) state
      (Parser.chainFrom item separator (rounds + 1) folded state)
      ⟨.ok folded, state.index, round.failures⟩ := by
  refine ⟨h.describes.chainFrom_stop hfails, ?_, h.accounts.chainFrom_stop,
    h.goesOn.map (fun _ => id) ?_⟩
  · rw [Parser.chainFrom_of_error (h.describes.eq_error hfails)]
    exact h.replayable.restore _
  · rintro hruns ⟨i, _ | rounds', hdeep⟩
    · exact absurd hdeep (Nat.not_succ_le_zero _)
    · exact (hruns i).chainFrom_stop hfails rounds'

/-- The rounds of a chain go on behind one that succeeds. -/
theorem chainFrom_round {fewer : Nat} {next : α} {rest : Trace α}
    (h : Retraced tokens more
      (fun i => (reseparators i).andThen fun combine => (reitems i).map (combine folded))
      (separators.bind fun combine => items.map (combine folded)) state
      ((separator.andThen fun combine => item.map (combine folded)) state) round)
    (hok : round.result = .ok next)
    (hrest : Retraced tokens more
      (fun run : ι × Deep fewer =>
        Parser.chainFrom (reitems run.1) (reseparators run.1) run.2.depth next)
      (ChainFrom items separators next)
      ((separator.andThen fun combine => item.map (combine folded)) state).2
      (Parser.chainFrom item separator rounds next
        ((separator.andThen fun combine => item.map (combine folded)) state).2) rest)
    (hfewer : fewer ≤ least) :
    Retraced tokens more
      (fun run : ι × Deep (least + 1) =>
        Parser.chainFrom (reitems run.1) (reseparators run.1) run.2.depth folded)
      (ChainFrom items separators folded) state
      (Parser.chainFrom item separator (rounds + 1) folded state)
      (rest.after round.failures) := by
  obtain ⟨u, behind, hsplit, hstop, hu⟩ := h.accounts.sound hok
  have hindex := h.describes.index.trans hstop
  have haccounts := h.accounts
  have haccounts' := hrest.accounts
  have hgoesOn := hrest.goesOn
  rw [hsplit] at haccounts
  rw [ParseState.lexemes_after h.describes.tokens hsplit hindex, hindex] at haccounts'
  rw [h.describes.index] at hgoesOn
  refine ⟨h.describes.chainFrom_round hok hrest.describes, ?_, ?_,
    h.goesOn.map₂ hgoesOn (fun _ => id) ?_⟩
  · rw [Parser.chainFrom_of_ok (h.describes.eq_ok hok)]
    exact hrest.replayable
  · rw [hsplit]
    exact haccounts.chainFrom_round hu haccounts'
  · rintro hruns hruns' ⟨i, _ | rounds', hdeep⟩
    · exact absurd hdeep (Nat.not_succ_le_zero _)
    · exact (hruns i).chainFrom_round hok
        (hruns' (i, ⟨rounds', Nat.le_trans hfewer (Nat.le_of_succ_le_succ hdeep)⟩))

end Chains

end Retraced

namespace Retraces

variable {left : Nat} {parser : Production α} {reruns : ι → Production α} {language : Language α}

theorem mono {fewer : Nat} {other : Language α}
    (h : Retraces tokens more left parser reruns language) (hfewer : fewer ≤ left)
    (hsub : ∀ u value, language u value → other u value) :
    Retraces tokens more fewer parser reruns other := by
  intro state hready
  obtain ⟨trace, htrace⟩ := h state (hready.mono hfewer)
  exact ⟨trace, htrace.describes, htrace.replayable, htrace.accounts.mono hsub, htrace.goesOn⟩

/-- Phrases may be counted to a larger language. -/
theorem widen {other : Language α} (h : Retraces tokens more left parser reruns language)
    (hsub : ∀ u value, language u value → other u value) :
    Retraces tokens more left parser reruns other :=
  h.mono (Nat.le_refl left) hsub

/-! ### Sequences -/

theorem succeed (value : α) :
    Retraces tokens more left (Parser.succeed value) (fun _ : ι => Parser.succeed value)
      (.pure value) := by
  intro state hready
  refine ⟨.succeed value state.index, .succeed state value, hready.replayable, .succeed .., ?_⟩
  exact .inr fun _ => .succeed value

theorem andThen {next : α → Production β} {renext : ι → α → Production β}
    {others : α → Language β} (h : Retraces tokens more left parser reruns language)
    (hnext : ∀ u value, language u value → u.length ≤ left →
      Retraces tokens more (left - u.length) (next value) (fun i => renext i value) (others value))
    (hothers : ∀ value, (others value).Viable []) :
    Retraces tokens more left (parser.andThen next) (fun i => (reruns i).andThen (renext i))
      (language.bind others) := by
  intro state hready
  obtain ⟨first, hfirst⟩ := h state hready
  cases hresult : first.result with
  | error failure =>
    refine ⟨⟨.error failure, first.stop, first.failures⟩,
      hfirst.describes.andThen_error hresult, ?_, hfirst.accounts.andThen_error hothers failure,
      hfirst.goesOn.map (fun _ => id) fun hruns i => (hruns i).andThen_error hresult⟩
    rw [Parser.andThen_of_error (hfirst.describes.eq_error hresult)]
    exact hfirst.replayable
  | ok value =>
    obtain ⟨u, rest, hsplit, hstop, hu⟩ := hfirst.accounts.sound hresult
    obtain ⟨hlength, hrest, hmiddle⟩ := hfirst.ready_behind hready hsplit hstop
    obtain ⟨second, hsecond⟩ := hnext u value hu hlength _ hmiddle
    have hindex := hfirst.describes.index
    have haccounts := hfirst.accounts
    have haccounts' := hsecond.accounts
    rw [hsplit] at haccounts
    rw [hrest, hindex, hstop] at haccounts'
    refine ⟨second.after first.failures,
      hfirst.describes.andThen_ok hresult hsecond.describes, ?_, ?_, ?_⟩
    · rw [Parser.andThen_of_ok (hfirst.describes.eq_ok hresult)]
      exact hsecond.replayable
    · rw [hsplit]
      exact haccounts.andThen_ok hothers hu haccounts'
    · have hgoesOn := hsecond.goesOn
      rw [hindex] at hgoesOn
      exact hfirst.goesOn.map₂ hgoesOn (fun _ => id) fun hruns hruns' i =>
        (hruns i).andThen_ok hresult (hruns' i)

theorem map (h : Retraces tokens more left parser reruns language) (f : α → β) :
    Retraces tokens more left (parser.map f) (fun i => (reruns i).map f) (language.map f) := by
  have hnext : ∀ u value, language u value → u.length ≤ left →
      Retraces tokens more (left - u.length) (Parser.succeed (f value))
        (fun _ : ι => Parser.succeed (f value)) (.pure (f value)) := fun _ value _ _ =>
    succeed (f value)
  exact (h.andThen hnext fun _ => Language.viable_nil ⟨rfl, rfl⟩).widen
    fun _ _ => Language.bind_pure_iff.1

theorem seq {second : Production β} {reseconds : ι → Production β} {others : Language β}
    (h : Retraces tokens more left parser reruns language)
    (hsecond : ∀ u value, language u value → u.length ≤ left →
      Retraces tokens more (left - u.length) second reseconds others)
    (hothers : others.Viable []) :
    Retraces tokens more left (parser.seq second) (fun i => (reruns i).seq (reseconds i))
      (language.seq others) :=
  h.andThen (fun u value hvalue hlength => (hsecond u value hvalue hlength).map _)
    fun _ => hothers.map _

/-! ### Choice -/

theorem or {other : Production α} {reothers : ι → Production α}
    (h : Retraces tokens more left parser reruns language)
    (h' : Retraces tokens more left other reothers language) :
    Retraces tokens more left (parser.or other) (fun i => (reruns i).or (reothers i)) language := by
  intro state hready
  obtain ⟨first, hfirst⟩ := h state hready
  have hback := hfirst.ready_back hready
  obtain ⟨second, hsecond⟩ := h' _ hback
  have haccounts := hsecond.accounts
  have hlexemes : ((parser state).2.restore state.index).lexemes = state.lexemes := by
    rw [hback.lexemes, hready.lexemes]
    rfl
  rw [hlexemes] at haccounts
  refine ⟨first.or second state.index, hfirst.describes.or hsecond.describes, ?_,
    hfirst.accounts.or haccounts, hfirst.goesOn.map₂ hsecond.goesOn (fun _ => id)
      fun hruns hruns' i => (hruns i).or (hruns' i)⟩
  rw [hfirst.describes.or_eq_choice hsecond.describes]
  exact hsecond.replayable.restore _

theorem optional (h : Retraces tokens more left parser reruns language) :
    Retraces tokens more left (Parser.optional parser) (fun i => Parser.optional (reruns i))
      language.option := by
  intro state hready
  obtain ⟨trace, htrace⟩ := h state hready
  refine ⟨trace.optional state.index, htrace.describes.optional, ?_, htrace.accounts.optional,
    htrace.goesOn.map ?_ fun hruns i => (hruns i).optional⟩
  · cases hresult : trace.result with
    | ok value =>
      rw [Parser.optional_of_ok (htrace.describes.eq_ok hresult)]
      exact htrace.replayable
    | error failure =>
      rw [Parser.optional_of_error (htrace.describes.eq_error hresult)]
      exact htrace.replayable.restore _
  · unfold Trace.optional
    cases trace.result <;> exact fun _ => id

theorem label (h : Retraces tokens more left parser reruns language) {name : String}
    (hname : name ∈ phraseNames) (hviable : language.Viable []) :
    Retraces tokens more left (parser.label name) (fun i => (reruns i).label name) language := by
  intro state hready
  obtain ⟨trace, htrace⟩ := h state hready
  refine ⟨trace.label state.index name, htrace.describes.label name, ?_,
    htrace.accounts.label hname hviable, htrace.goesOn.map ?_ fun hruns i => (hruns i).label name⟩
  · cases hresult : trace.result with
    | ok value =>
      rw [Parser.label_of_ok (htrace.describes.eq_ok hresult)]
      exact htrace.replayable
    | error failure =>
      rw [Parser.label_of_error (htrace.describes.eq_error hresult)]
      split
      · exact htrace.replayable.record _
      · exact htrace.replayable
  · unfold Trace.label
    cases trace.result with
    | ok value => exact fun _ => id
    | error failure =>
      dsimp only
      split
      · exact fun _ => List.mem_append_left _
      · exact fun _ => id

/-! ### Single lexemes -/

/-- A test for a class of lexemes goes on, unless it meets a token of that class. -/
theorem goesOn_satisfy {accepts : Lexeme → Bool} {expected : String}
    (hclass : ∀ lexeme, accepts lexeme = true → lexeme.className = expected) {index : Nat}
    (hindex : index ≤ tokens.length) :
    (Trace.satisfy accepts expected tokens[index]? index).GoesOn tokens more index
      fun _ : ι => Parser.satisfy accepts expected := by
  have hrun : ∀ token? : Option Token, (tokens ++ more)[index]? = token? →
      HasTrace (tokens ++ more).toArray index (Parser.satisfy accepts expected)
        (.satisfy accepts expected token? index) := by
    intro token? htoken
    rw [← htoken, ← List.getElem?_toArray]
    exact .satisfy accepts expected
  rcases Nat.lt_or_eq_of_le hindex with hlt | rfl
  · exact .inr fun _ => hrun _ (List.getElem?_append_left hlt)
  · -- At the end of the tokens only those behind them count.
    have hnone : tokens[tokens.length]? = none := List.getElem?_eq_none (Nat.le_refl _)
    have hhead : (tokens ++ more)[tokens.length]? = more.head? := by
      rw [List.getElem?_append_right (Nat.le_refl _), Nat.sub_self, List.head?_eq_getElem?]
    rw [hnone]
    by_cases haccepts : ∃ token, more.head? = some token ∧ accepts token.lexeme = true
    · obtain ⟨token, htoken, haccepts⟩ := haccepts
      refine .inl ⟨_, List.mem_singleton_self _, rfl, token, htoken, ?_⟩
      rw [hclass token.lexeme haccepts]
      exact List.mem_singleton_self expected
    · have hfilter : more.head?.filter (accepts ·.lexeme) = none := by
        rw [Option.filter_eq_none_iff]
        exact fun token htoken htest => haccepts ⟨token, htoken, htest⟩
      have hsame : Trace.satisfy accepts expected more.head? tokens.length
          = Trace.satisfy accepts expected none tokens.length := by
        rw [Trace.satisfy, hfilter]
        rfl
      rw [← hsame]
      exact .inr fun _ => hrun _ hhead

theorem satisfy {accepts : Lexeme → Bool} {expected : String} {sample : Lexeme}
    (hclass : ∀ lexeme : Lexeme, accepts lexeme = true ↔ lexeme.className = expected)
    (hfits : sample.Fits) (hsample : accepts sample = true) :
    Retraces tokens more left (Parser.satisfy accepts expected)
      (fun _ : ι => Parser.satisfy accepts expected) (.satisfying accepts) := by
  intro state hready
  have hpeek : state.peek? = tokens[state.index]? := by
    rw [ParseState.peek?, hready.reads, List.getElem?_toArray]
  have hgoesOn : (Trace.satisfy accepts expected tokens[state.index]? state.index).GoesOn tokens
      more state.index fun _ : ι => Parser.satisfy accepts expected :=
    goesOn_satisfy (fun lexeme => (hclass lexeme).1) hready.index
  rw [← hpeek] at hgoesOn
  refine ⟨_, .satisfy state accepts expected, ?_,
    .satisfy hclass hfits hsample state.peek?_map_lexeme, hgoesOn⟩
  unfold Parser.satisfy
  split
  · unfold ParseState.advance
    split
    · exact hready.replayable.restore _
    · exact hready.replayable
  · exact hready.replayable.record _

theorem tag (wanted : Tag) (hwanted : wanted ≠ .symbol) {sample : Lexeme} (hfits : sample.Fits)
    (hsample : sample.tag = wanted) :
    Retraces tokens more left (Parser.tag wanted) (fun _ : ι => Parser.tag wanted)
      (.satisfying (·.tag = wanted)) :=
  satisfy (fun _ => decide_eq_true_iff.trans (Lexeme.className_eq_describeTag hwanted).symm) hfits
    (decide_eq_true hsample)

/-- A symbol, which is a reserved word that is no truth value. -/
theorem word (word : Reserved) (hword : (Lexeme.reserved word).tag = .symbol) :
    Retraces tokens more left (Parser.literal word.text) (fun _ : ι => Parser.literal word.text)
      (.word word) := by
  have hclass : ∀ lexeme : Lexeme,
      (lexeme.tag = .symbol && lexeme.text = word.text) = true ↔
        lexeme.className = "'" ++ word.text ++ "'" := by
    intro lexeme
    rw [Bool.and_eq_true, decide_eq_true_eq, decide_eq_true_eq, Lexeme.className_eq_quoted]
  have hsample : ((Lexeme.reserved word).tag = .symbol &&
      (Lexeme.reserved word).text = word.text) = true := by
    rw [Bool.and_eq_true, decide_eq_true_eq, decide_eq_true_eq]
    exact ⟨hword, rfl⟩
  have hfits : (Lexeme.reserved word).Fits := trivial
  exact (satisfy hclass hfits hsample).widen fun _ _ => (Language.satisfying_word_iff hword).1

/-- A reserved word behind what is read. -/
theorem skipWord (h : Retraces tokens more left parser reruns language) (word : Reserved)
    (hword : (Lexeme.reserved word).tag = .symbol) :
    Retraces tokens more left (parser.skip (Parser.literal word.text))
      (fun i => (reruns i).skip (Parser.literal word.text)) (language.before word) := by
  have hnext : ∀ u value, language u value → u.length ≤ left →
      Retraces tokens more (left - u.length) ((Parser.literal word.text).map fun _ => value)
        (fun _ : ι => (Parser.literal word.text).map fun _ => value)
        ((Language.word word).map fun _ => value) := fun _ value _ _ =>
    (Retraces.word word hword).map fun _ => value
  exact (h.andThen hnext fun _ => Language.viable_nil ⟨_, ⟨rfl, rfl⟩, rfl⟩).widen
    fun _ _ => Language.bind_word_iff.1

/-- A reserved word before what is read. -/
theorem afterWord (word : Reserved) (hword : (Lexeme.reserved word).tag = .symbol)
    (h : 0 < left → Retraces tokens more (left - 1) parser reruns language)
    (hviable : language.Viable []) :
    Retraces tokens more left ((Parser.literal word.text).skipLeft parser)
      (fun i => (Parser.literal word.text).skipLeft (reruns i)) (language.behind word) := by
  have hnext : ∀ u text, Language.word word u text → u.length ≤ left →
      Retraces tokens more (left - u.length) parser reruns language := by
    rintro _ _ ⟨rfl, _⟩ hlength
    exact h hlength
  have hfirst : Retraces tokens more left (Parser.literal word.text)
      (fun _ : ι => Parser.literal word.text) (Language.word word) := Retraces.word word hword
  exact (hfirst.andThen hnext fun _ => hviable).widen fun _ _ => Language.word_bind_iff.1

/-- Digits with or without a sign, read as a number. -/
theorem number
    (h : Retraces tokens more left ((Parser.optional (Parser.literal "-")).seq (Parser.tag .number))
      (fun _ : ι => (Parser.optional (Parser.literal "-")).seq (Parser.tag .number))
      ((Language.word .minus).option.seq fun u digits => u = [.integer digits])) :
    Retraces tokens more left Grammar.number (fun _ : ι => Grammar.number) Phrase.Number := by
  intro state hready
  obtain ⟨trace, htrace⟩ := h state hready
  refine ⟨trace.number state.index, htrace.describes.number, ?_, htrace.accounts.number,
    htrace.goesOn.map ?_ fun hruns i => (hruns i).number⟩
  · have hreplayable := htrace.replayable
    unfold Grammar.number
    rcases hparse : ((Parser.optional (Parser.literal "-")).seq (Parser.tag .number)) state with
      ⟨_ | ⟨sign, digits⟩, behind⟩
    · rw [hparse] at hreplayable
      exact hreplayable
    · rw [hparse] at hreplayable
      dsimp only
      split
      · exact hreplayable
      · exact (hreplayable.restore state.index).record _
  · unfold Trace.number
    cases trace.result with
    | error failure => exact fun _ => id
    | ok pair =>
      dsimp only
      split
      · exact fun _ => id
      · exact fun _ => List.mem_append_left _

/-! ### Repetition -/

section Chains

variable {item : Production α} {separator : Production (α → α → α)} {reitems : ι → Production α}
  {reseparators : ι → Production (α → α → α)} {items : Language α}
  {separators : Language (α → α → α)}

/-- A round of a chain is a separator and an item. -/
theorem round (hitem : Retraces tokens more left item reitems items)
    (hseparator : Retraces tokens more left separator reseparators separators)
    (hviable : items.Viable []) (folded : α) :
    Retraces tokens more left (separator.andThen fun combine => item.map (combine folded))
      (fun i => (reseparators i).andThen fun combine => (reitems i).map (combine folded))
      (separators.bind fun combine => items.map (combine folded)) :=
  hseparator.andThen
    (fun u _ _ _ => (hitem.mono (Nat.sub_le left u.length) fun _ _ => id).map _)
    fun _ => hviable.map _

/-- More rounds than tokens are as good as any such number of them. -/
theorem chainFrom (hitem : Retraces tokens more left item reitems items)
    (hseparator : Retraces tokens more left separator reseparators separators)
    (hviable : items.Viable []) (hprogress : ∀ u combine, separators u combine → 0 < u.length)
    (rounds : Nat) (folded : α) {state : State} (hready : Ready tokens more left state)
    (hrounds : tokens.length - state.index < rounds) :
    ∃ trace, Retraced tokens more
      (fun run : ι × Deep (tokens.length + more.length - state.index + 1) =>
        Parser.chainFrom (reitems run.1) (reseparators run.1) run.2.depth folded)
      (ChainFrom items separators folded) state
      (Parser.chainFrom item separator rounds folded state) trace := by
  induction rounds generalizing folded state with
  | zero => exact absurd hrounds (Nat.not_lt_zero _)
  | succ rounds ih =>
    obtain ⟨round, hround⟩ := hitem.round hseparator hviable folded state hready
    cases hresult : round.result with
    | error failure => exact ⟨_, hround.chainFrom_stop hresult⟩
    | ok next =>
      obtain ⟨u, behind, hsplit, hstop, hu⟩ := hround.accounts.sound hresult
      obtain ⟨-, -, hmiddle⟩ := hround.ready_behind hready hsplit hstop
      have hindex := hround.describes.index.trans hstop
      have hlength : 0 < u.length := by
        obtain ⟨v, w, combine, rfl, hv, -⟩ := hu
        rw [List.length_append]
        exact Nat.add_pos_left (hprogress v combine hv) _
      have hbefore := hmiddle.index
      rw [hindex] at hbefore
      obtain ⟨rest, hrest⟩ := ih next (hmiddle.mono (Nat.sub_le left u.length))
        (by rw [hindex]; omega)
      exact ⟨_, hround.chainFrom_round hresult hrest (by rw [hindex]; omega)⟩

theorem chainLeft (hitem : Retraces tokens more left item reitems items)
    (hseparator : Retraces tokens more left separator reseparators separators)
    (hviable : items.Viable []) (hprogress : ∀ u combine, separators u combine → 0 < u.length) :
    Retraces tokens more left (item.chainLeft separator)
      (fun i => (reitems i).chainLeft (reseparators i)) (Chain items separators) := by
  have hrest : ∀ u first, items u first → u.length ≤ left →
      Retraces tokens more (left - u.length)
        (fun state =>
          Parser.chainFrom item separator (state.tokens.size - state.index + 1) first state)
        (fun i state => Parser.chainFrom (reitems i) (reseparators i)
          (state.tokens.size - state.index + 1) first state)
        (ChainFrom items separators first) := by
    intro u first _ _ state hready
    have hrounds : tokens.length - state.index < state.tokens.size - state.index + 1 := by
      rw [hready.reads, List.size_toArray]
      exact Nat.lt_succ_self _
    obtain ⟨trace, htrace⟩ := hitem.chainFrom hseparator hviable hprogress _ first
      (hready.mono (Nat.sub_le left u.length)) hrounds
    refine ⟨trace, htrace.describes, htrace.replayable, htrace.accounts,
      htrace.goesOn.map (fun _ => id) fun hruns i state' htokens hindex => ?_⟩
    refine hruns (i, ⟨_, Nat.le_of_eq ?_⟩) state' htokens hindex
    rw [htokens, hindex, List.size_toArray, List.length_append]
  exact (hitem.andThen hrest fun value => Language.viable_nil (.stop value)).widen
    fun _ _ => bind_chainFrom_iff.1

end Chains

/-! ### Lists -/

/-- Items with a symbol between them. -/
theorem separated (h : Retraces tokens more left parser reruns language)
    (hviable : language.Viable []) (word : Reserved)
    (hword : (Lexeme.reserved word).tag = .symbol) :
    Retraces tokens more left (Parser.separated parser word.text)
      (fun i => Parser.separated (reruns i) word.text) (SeparatedBy word language) := by
  refine ((h.map fun value => [value]).chainLeft ((Retraces.word word hword).map _)
    (hviable.map _) ?_).widen fun _ _ => Reads.chain_collect_iff.1
  rintro _ _ ⟨_, ⟨rfl, _⟩, _⟩
  exact Nat.one_pos

/-- Items with commas between them, or nothing. -/
theorem commaList (h : Retraces tokens more left parser reruns language)
    (hviable : language.Viable []) :
    Retraces tokens more left (Grammar.commaList parser) (fun i => Grammar.commaList (reruns i))
      (CommaList language) := by
  have hseparated : Retraces tokens more left (Parser.separated parser ",")
      (fun i => Parser.separated (reruns i) ",") (SeparatedBy .comma language) :=
    h.separated hviable .comma rfl
  exact (hseparated.optional.map _).widen fun _ _ => map_option_iff.1

end Retraces

end WhileLang

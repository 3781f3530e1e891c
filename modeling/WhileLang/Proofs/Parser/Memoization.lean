import WhileLang.Proofs.Parser.RetracedProductions

/-!
# Storing results changes no answer

A rule that finds its result stored moves the cursor and records nothing.  Since all failures of the
first run are absorbed by then, a second run would have come out the same.

Main definitions:

- Predicate {lit}`StartsRetraced`: a production to start with is retraced if the rules are.

Main results:

- Theorem {lit}`retraces_rule`: every rule is retraced by itself, to whatever depth it is run.
- Theorem {lit}`StartsRetraced.exists_trace`: whole runs and their traces.
- Theorem {lit}`parse_eq_rerun`: parsing yields the same trees and the same errors as parsing by
  rules that run their bodies at every use.
-/

namespace WhileLang

open Grammar (Production Rules State)

variable {α ι κ : Type} {tokens more : List Token}

/-! ## Rules that store nothing -/

/-- Without stored results a rule runs its body at every use. -/
theorem rules_rerun_succ (depth : Nat) (rule : Nonterminal) (state : State) :
    Grammar.rules .rerun (depth + 1) rule state
      = Grammar.production (Grammar.rules .rerun depth) rule (state.mark rule) :=
  rfl

/-- Marks do not show in traces. -/
theorem Trace.Describes.of_mark {trace : Trace α} {state : State} {rule : Nonterminal}
    {outcome : Except ParseError α × State} (h : trace.Describes (state.mark rule) outcome) :
    trace.Describes state outcome :=
  ⟨h.result, h.tokens, h.index, h.furthest⟩

/-- A rule leaves the trace of its body. -/
theorem HasTrace.rules_rerun {tokens : Array Token} {index depth : Nat} {rule : Nonterminal}
    {trace : Trace rule.Tree}
    (h : HasTrace tokens index (Grammar.production (Grammar.rules .rerun depth) rule) trace) :
    HasTrace tokens index (Grammar.rules .rerun (depth + 1) rule) trace := by
  intro state htokens hindex
  rw [rules_rerun_succ]
  exact (h (state.mark rule) htokens hindex).of_mark

theorem Retraces.reindex {left : Nat} {parser : Production α} {reruns : ι → Production α}
    {language : Language α} (h : Retraces tokens more left parser reruns language) (f : κ → ι) :
    Retraces tokens more left parser (fun k => reruns (f k)) language := by
  intro state hready
  obtain ⟨trace, htrace⟩ := h state hready
  exact ⟨trace, htrace.describes, htrace.replayable, htrace.accounts,
    htrace.goesOn.map (fun _ => id) fun hruns k => hruns (f k)⟩

/-! ## Rules that store their results -/

/-- A result that has a trace may be stored. -/
theorem Replayable.store {state : State} (h : Replayable tokens more state) {rule : Nonterminal}
    {start : Nat} {result : Except ParseError rule.Tree} {trace : Trace rule.Tree}
    (hreplays : Replays tokens more state.furthest rule start result state.index trace) :
    Replayable tokens more (state.store rule start result) :=
  ParseState.forall_recall?_store ⟨trace, hreplays⟩ h

/-- What is enough for all that may be left is enough for what is left. -/
theorem Ready.depthFor_le {left : Nat} {state : State} (h : Ready tokens more left state)
    {rule : Nonterminal} :
    rule.depthFor (tokens.length + more.length - state.index) ≤ rule.depthFor left := by
  have hleft := h.left
  unfold Nonterminal.depthFor
  omega

/-- To replay a stored result is as good as to run its rule again. -/
theorem Replays.retraced {left : Nat} {state : State} {rule : Nonterminal}
    {result : Except ParseError rule.Tree} {stop : Nat} {trace : Trace rule.Tree}
    (h : Replays tokens more state.furthest rule state.index result stop trace)
    (hready : Ready tokens more left state) :
    Retraced tokens more (fun deep : Deep (rule.depthFor left) => rerun deep rule) rule.phrase
      state (result, state.restore stop) trace := by
  refine ⟨⟨?_, rfl, h.stop, ?_⟩, hready.replayable.restore stop, ?_, ?_⟩
  · rw [hready.reads]
    exact h.result
  · rw [hready.reads]
    refine (furthestOf_eq_of_absorbs fun error hmem => ?_).symm
    obtain ⟨failure, hfailure, rfl⟩ := List.mem_map.1 hmem
    exact h.absorbs failure hfailure
  · rw [hready.lexemes]
    exact h.accounts
  · exact h.goesOn.map (fun _ => id) fun hruns deep => hruns (deep.relax hready.depthFor_le)

/-- A rule that is run, storing what it yields for the tokens that are left. -/
theorem Retraced.runBody {left : Nat} {state : State} {rule : Nonterminal}
    {body : Production rule.Tree} {rebody : ι → Production rule.Tree} {trace : Trace rule.Tree}
    (h : Retraced tokens more rebody rule.phrase (state.mark rule) (body (state.mark rule)) trace)
    (hready : Ready tokens more left state)
    (hgoesOn : trace.GoesOn tokens more state.index
      fun deep : Deep (rule.depthFor (tokens.length + more.length - state.index)) =>
        rerun deep rule) :
    Retraced tokens more (fun deep : Deep (rule.depthFor left) => rerun deep rule) rule.phrase
      state (Parser.runBody .stored rule body state) trace := by
  have hdescribes : trace.Describes state (body (state.mark rule)) := h.describes.of_mark
  have hresult := hdescribes.result
  have hfurthest := hdescribes.furthest
  have haccounts : trace.Accounts rule.phrase state.lexemes state.index := h.accounts
  rw [hready.reads] at hresult hfurthest
  rw [hready.lexemes] at haccounts
  have hreplays : Replays tokens more (body (state.mark rule)).2.furthest rule state.index
      (body (state.mark rule)).1 (body (state.mark rule)).2.index trace := by
    refine ⟨hresult, hdescribes.index, haccounts, fun failure hmem => ?_, hgoesOn⟩
    rw [hfurthest]
    exact absorbs_furthestOf _ (List.mem_map_of_mem hmem)
  refine ⟨⟨hdescribes.result, hdescribes.tokens, hdescribes.index, hdescribes.furthest⟩,
    h.replayable.store hreplays, h.accounts, hgoesOn.map (fun _ => id) fun hruns deep => ?_⟩
  exact hruns (deep.relax hready.depthFor_le)

/-- The body of a rule is retraced if all rules are that it may run at one depth less. -/
theorem retraces_body {depth left : Nat} {rule : Nonterminal}
    (hrules : ∀ (fewer : Nat) (other : Nonterminal), 4 * fewer + other.rank < depth →
      Retraces tokens more fewer (Grammar.rules .stored depth other)
        (fun deep : Deep (other.depthFor fewer) => rerun deep other) other.phrase)
    (h : 4 * left + rule.rank ≤ depth) :
    Retraces tokens more left (Grammar.production (Grammar.rules .stored depth) rule)
      (fun deep : Deep (4 * left + rule.rank) => Grammar.production (rerun deep) rule)
      rule.phrase := by
  have hother : ∀ fewer (other : Nonterminal), 4 * fewer + other.rank < 4 * left + rule.rank →
      Retraces tokens more fewer (Grammar.rules .stored depth other)
        (fun deep : Deep (4 * left + rule.rank) => rerun deep other) other.phrase := by
    intro fewer other hlt
    exact (hrules fewer other (Nat.lt_of_lt_of_le hlt h)).reindex (Deep.relax · hlt)
  refine Retraces.production rule (fun fewer hfewer other => hother fewer other ?_)
    fun other hlower => hother left other (Nat.add_lt_add_left hlower _)
  have hrank := other.rank_lt
  omega

/-- A rule is retraced by itself, where both are run to depths of four times the tokens left. -/
theorem retraces_rule (depth left : Nat) (rule : Nonterminal) (h : 4 * left + rule.rank < depth) :
    Retraces tokens more left (Grammar.rules .stored depth rule)
      (fun deep : Deep (rule.depthFor left) => rerun deep rule) rule.phrase := by
  induction depth generalizing left rule with
  | zero => exact absurd h (Nat.not_lt_zero _)
  | succ depth ih =>
    intro state hready
    rw [rules_succ]
    cases hrecall : state.«recall?» rule with
    | some stored =>
      obtain ⟨trace, hreplays⟩ := hready.replayable rule state.index stored.1 stored.2 hrecall
      exact ⟨trace, hreplays.retraced hready⟩
    | none =>
      -- The body is retraced for the tokens that are left here, since it is stored for them.
      have hleft := hready.left
      have hdepth : 4 * (tokens.length + more.length - state.index) + rule.rank ≤ depth := by omega
      have hexact : tokens.length + more.length
          ≤ state.index + (tokens.length + more.length - state.index) := by omega
      have hmarked : Ready tokens more (tokens.length + more.length - state.index)
          (state.mark rule) :=
        ⟨hready.reads, hready.index, hexact, hready.replayable.of_memory rfl fun _ => id⟩
      obtain ⟨trace, htrace⟩ := retraces_body ih hdepth (state.mark rule) hmarked
      refine ⟨trace, htrace.runBody hready (htrace.goesOn.map (fun _ => id) ?_)⟩
      rintro hruns ⟨_ | deep, hdeep⟩
      · exact absurd hdeep (Nat.not_succ_le_zero _)
      · exact (hruns ⟨deep, Nat.le_of_succ_le_succ hdeep⟩).rules_rerun

/-! ## Whole runs -/

/-- A production to start with is retraced by itself, if the rules are for all tokens. -/
def StartsRetraced (start : Rules → Production α) (language : Language α) : Prop :=
  ∀ {ι : Type} {tokens more : List Token} {left : Nat} {rules : Rules} {reruns : ι → Rules},
    RetracedBelow tokens more (left + 1) rules reruns →
      Retraces tokens more left (start rules) (fun i => start (reruns i)) language

theorem startsRetraced_expression : StartsRetraced Grammar.expression Phrase.Expression :=
  fun h => Retraces.expression_below h (Nat.lt_succ_self _)

theorem startsRetraced_block : StartsRetraced (· .block) Phrase.Block :=
  fun h => h _ (Nat.lt_succ_self _) .block

theorem startsRetraced_program : StartsRetraced Grammar.program Phrase.Program :=
  fun h => .program fun fewer hfewer => h fewer (Nat.lt_succ_of_lt hfewer)

/-- A run has a trace, which is also that of a run without storing on more tokens. -/
theorem StartsRetraced.exists_trace {start : Rules → Production α} {language : Language α}
    (hstart : StartsRetraced start language) (tokens more : List Token) {depth : Nat}
    (hdepth : Grammar.depthFor (tokens ++ more) ≤ depth) :
    ∃ trace : Trace α,
      trace.Describes (.start tokens) (start (Grammar.rules .stored depth) (.start tokens)) ∧
        trace.Accounts language (tokens.map (·.lexeme)) 0 ∧
          trace.GoesOn tokens more 0 fun deep : Deep (Grammar.depthFor (tokens ++ more)) =>
            start (rerun deep) := by
  rw [Grammar.depthFor, List.length_append] at hdepth
  have hrules : RetracedBelow tokens more (tokens.length + more.length + 1)
      (Grammar.rules .stored depth)
      (fun deep : Deep (Grammar.depthFor (tokens ++ more)) => rerun deep) := by
    intro fewer hfewer rule
    have hrank := rule.rank_lt
    refine (retraces_rule depth fewer rule (by omega)).reindex (Deep.relax · ?_)
    rw [Grammar.depthFor, List.length_append, Nonterminal.depthFor]
    omega
  have hready : Ready tokens more (tokens.length + more.length) (.start tokens) := by
    refine ⟨rfl, Nat.zero_le _, Nat.le_add_left _ _, ?_⟩
    intro rule start result stop hrecall
    simp [ParseState.start, ParseState.«recall?», ParseState.restore] at hrecall
  obtain ⟨trace, htrace⟩ := hstart hrules (.start tokens) hready
  exact ⟨trace, htrace.describes, htrace.accounts, htrace.goesOn⟩

/-- On all tokens the runs that store results and those that store none leave one trace. -/
theorem StartsRetraced.exists_whole_trace {start : Rules → Production α} {language : Language α}
    (hstart : StartsRetraced start language) (tokens : List Token) {depth : Nat}
    (hdepth : Grammar.depthFor tokens ≤ depth) :
    ∃ trace : Trace α,
      trace.Describes (.start tokens) (start (Grammar.rules .stored depth) (.start tokens)) ∧
        ∀ deep : Deep (Grammar.depthFor tokens),
          HasTrace tokens.toArray 0 (start (rerun deep)) trace := by
  have hnil : Grammar.depthFor (tokens ++ []) = Grammar.depthFor tokens := by
    rw [List.append_nil]
  obtain ⟨trace, hstored, -, hgoesOn⟩ :=
    hstart.exists_trace tokens [] (Nat.le_trans (Nat.le_of_eq hnil) hdepth)
  exact ⟨trace, hstored, fun deep => hgoesOn.of_nil (deep.relax (Nat.le_of_eq hnil))⟩

/-- A whole run that must consume everything reports the answer of its trace. -/
theorem Trace.Describes.run_complete {tokens : List Token} {parser : Production α} {trace : Trace α}
    (h : trace.Describes (.start tokens) (parser (.start tokens))) :
    parser.complete.run tokens = (trace.complete tokens.length).answer tokens :=
  h.complete.run_eq_answer

/-- Rules that store their results read all tokens as those do that run to any greater depth. -/
theorem StartsRetraced.read_eq_rerun {start : Rules → Production α} {language : Language α}
    (hstart : StartsRetraced start language) (tokens : List Token) (extra : Nat) :
    Grammar.read .stored start tokens
      = (start (Grammar.rules .rerun (Grammar.depthFor tokens + extra))).complete.run tokens := by
  obtain ⟨trace, hstored, hrerun⟩ := hstart.exists_whole_trace tokens (Nat.le_refl _)
  have htrace : HasTrace tokens.toArray 0
      (start (Grammar.rules .rerun (Grammar.depthFor tokens + extra))) trace :=
    hrerun ⟨_, Nat.le_add_right _ extra⟩
  exact hstored.run_complete.trans (htrace (.start tokens) rfl rfl).run_complete.symm

/--
Storing the results of rules does not show.  Expressions, blocks and programs are parsed to the same
trees, and fail with the same errors, as by rules that run their bodies at every use, however deep
these may be nested.
-/
theorem parse_eq_rerun (tokens : List Token) (extra : Nat) :
    let rules := Grammar.rules .rerun (Grammar.depthFor tokens + extra)
    Expr.parse tokens = (Grammar.expression rules).complete.run tokens ∧
      Stmt.parse tokens = (rules .block).complete.run tokens ∧
        Program.parse tokens = (Grammar.program rules).complete.run tokens :=
  ⟨startsRetraced_expression.read_eq_rerun tokens extra,
    startsRetraced_block.read_eq_rerun tokens extra,
    startsRetraced_program.read_eq_rerun tokens extra⟩

end WhileLang

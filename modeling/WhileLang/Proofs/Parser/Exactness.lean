import WhileLang.Proofs.Parser.Programs

/-!
# The parser accepts exactly its grammar

Rules are run to a depth that grows with the lexemes that are left, and store what they read.  Both
leave the phrases as they are: by induction on the depth every rule reads its phrases, and what is
stored is right.

Main definitions:

- Function {lit}`Nonterminal.rank`: rules at one place run rules of a smaller rank.
- Structure {lit}`ParsesExactly`: what the parser accepts, and the trees it finds.

Main results:

- Theorem {lit}`reads_rule`: every rule reads its phrases.
- Theorem {lit}`parsesExactly_phrases`: expressions, blocks and programs are parsed exactly.
-/

namespace WhileLang

open Grammar (Rules State)

/-! ## Rules -/

/-- Where a rule starts with another one, that has a smaller rank. -/
def Nonterminal.rank : Nonterminal → Nat
  | .arithmetic => 0
  | .block => 0
  | .logicTerm => 1
  | .logic => 2

theorem Nonterminal.rank_lt (rule : Nonterminal) : rule.rank < 4 := by
  cases rule <;> decide

/-- The body of a rule reads its phrases. -/
theorem reads_production {left : Nat} {rules : Rules} (rule : Nonterminal)
    (hbelow : ReadBelow left rules) (hlower : ∀ other : Nonterminal, other.rank < rule.rank →
      Reads left (rules other) other.phrase other.follow) :
    Reads left (Grammar.production rules rule) rule.phrase rule.follow := by
  cases rule with
  | arithmetic => exact .arithmetic hbelow
  | logicTerm => exact .logicTerm hbelow (hlower .arithmetic (by decide))
  | logic => exact .logic hbelow (hlower .logicTerm (by decide))
  | block => exact .block hbelow

/-- A right result may be stored. -/
theorem Remembers.store {state : State} (h : Remembers state) {rule : Nonterminal} {start : Nat}
    {result : Except ParseError rule.Tree}
    (hresult :
      Settles rule.phrase rule.follow (state.restore start).lexemes start result state.index) :
    Remembers (state.store rule start result) :=
  ParseState.forall_recall?_store hresult h

/-- A rule that is run, storing what it reads. -/
theorem Reads.runBody {left : Nat} {rule : Nonterminal} {body : Grammar.Production rule.Tree}
    (h : Reads left body rule.phrase rule.follow) :
    Reads left (Parser.runBody .stored rule body) rule.phrase rule.follow := by
  intro state hremembers hlength
  obtain ⟨htokens, hafter, hsettles⟩ :=
    h (state.mark rule) (hremembers.of_memory rfl rfl) hlength
  unfold Parser.runBody
  rcases hbody : body (state.mark rule) with ⟨result, after⟩
  simp only [hbody] at htokens hafter hsettles
  refine ⟨htokens, hafter.store ?_, hsettles⟩
  have hlexemes : (after.restore state.index).lexemes = state.lexemes := by
    rw [ParseState.lexemes_eq_drop, ParseState.lexemes_eq_drop]
    exact congrArg _ (congrArg _ (congrArg _ htokens))
  rw [hlexemes]
  exact hsettles

theorem rules_succ (depth : Nat) (rule : Nonterminal) (state : State) :
    Grammar.rules .stored (depth + 1) rule state =
      match state.«recall?» rule with
      | some (result, stop) => (result, state.restore stop)
      | none =>
        Parser.runBody .stored rule (Grammar.production (Grammar.rules .stored depth) rule)
          state := by
  unfold Grammar.rules
  rw [Parser.rule]
  simp only [Parser.recalled?]
  cases state.«recall?» rule <;> rfl

/-- A rule that is run to a depth of four times the lexemes left reads its phrases. -/
theorem reads_rule (depth left : Nat) (rule : Nonterminal) (h : 4 * left + rule.rank < depth) :
    Reads left (Grammar.rules .stored depth rule) rule.phrase rule.follow := by
  induction depth generalizing left rule with
  | zero => exact absurd h (Nat.not_lt_zero _)
  | succ depth ih =>
    have hbelow : ReadBelow left (Grammar.rules .stored depth) := fun fewer hfewer other =>
      ih fewer other (by have hrank := other.rank_lt; omega)
    have hbody : Reads left (Grammar.production (Grammar.rules .stored depth) rule) rule.phrase
        rule.follow := reads_production rule hbelow fun other hother => ih left other (by omega)
    intro state hremembers hlength
    rw [rules_succ]
    cases hrecall : state.«recall?» rule with
    | none => exact hbody.runBody state hremembers hlength
    | some stored =>
      obtain ⟨result, stop⟩ := stored
      exact ⟨rfl, hremembers.of_memory rfl rfl, hremembers rule state.index result stop hrecall⟩

/-! ## Whole inputs -/

/-- What is read of all tokens by a production is what they spell. -/
theorem read_eq_ok_iff {α : Type} {start : Rules → Grammar.Production α} {language : Language α}
    {follow : List Lexeme → Prop} (hfollow : follow [])
    (hstart : ∀ (left : Nat) (rules : Rules), ReadBelow (left + 1) rules →
      Reads left (start rules) language follow) (tokens : List Token) (value : α) :
    Grammar.read .stored start tokens = .ok value ↔ language (tokens.map (·.lexeme)) value := by
  refine (hstart tokens.length _ fun fewer hfewer rule => ?_).run_eq_ok_iff hfollow
  have hrank := rule.rank_lt
  exact reads_rule _ fewer rule (by unfold Grammar.depthFor; omega)

theorem Expr.parse_eq_ok {tokens : List Token} {tree : Expr} :
    Expr.parse tokens = .ok tree ↔ Phrase.Expression (tokens.map (·.lexeme)) tree :=
  read_eq_ok_iff (stopsBefore_nil Lexeme.continuesLogic)
    (fun left _ h => Reads.expression_below h (Nat.lt_succ_self left)) tokens tree

theorem Stmt.parse_eq_ok {tokens : List Token} {tree : Stmt} :
    Stmt.parse tokens = .ok tree ↔ Phrase.Block (tokens.map (·.lexeme)) tree :=
  read_eq_ok_iff ⟨stopsBefore_nil Lexeme.continuesLogic, nofun⟩
    (fun left _ h => h left (Nat.lt_succ_self left) .block) tokens tree

theorem Program.parse_eq_ok {tokens : List Token} {tree : Program} :
    Program.parse tokens = .ok tree ↔ Phrase.Program (tokens.map (·.lexeme)) tree := by
  have hprogram : ∀ (left : Nat) (rules : Rules), ReadBelow (left + 1) rules →
      Reads left (Grammar.program rules) Phrase.Program (· = []) := fun _ _ h =>
    .program fun fewer hfewer => h fewer (Nat.lt_succ_of_lt hfewer)
  refine read_eq_ok_iff ?_ hprogram tokens tree
  rfl

/-- A parser accepts what spells a tree, with that tree, and there is no other tree. -/
structure ParsesExactly {α : Type} (parse : List Token → Except ParseError α)
    (language : Language α) : Prop where
  accepts (tokens : List Token) (tree : α) :
    parse tokens = .ok tree ↔ language (tokens.map (·.lexeme)) tree
  unambiguous {lexemes : List Lexeme} {tree other : α} : language lexemes tree →
    language lexemes other → tree = other

/-- Lexemes that are accepted as some tokens have one tree. -/
theorem ParsesExactly.of_accepts {α : Type} {parse : List Token → Except ParseError α}
    {language : Language α}
    (h : ∀ tokens tree, parse tokens = .ok tree ↔ language (tokens.map (·.lexeme)) tree) :
    ParsesExactly parse language where
  accepts := h
  unambiguous {lexemes tree other} htree hother := by
    have hlexemes : lexemes = (lexemes.map fun lexeme =>
        Token.mk lexeme ⟨.start, .start, ""⟩).map (·.lexeme) := by
      rw [List.map_map]
      exact (List.map_id lexemes).symm
    rw [hlexemes, ← h] at htree hother
    exact Except.ok.inj (htree.symm.trans hother)

/--
The parser accepts exactly the phrases of the grammar, each with its only tree.  So neither the
choice of the longer alternative nor the greedy repetition ever loses a phrase.
-/
theorem parsesExactly_phrases :
    ParsesExactly Expr.parse Phrase.Expression ∧ ParsesExactly Stmt.parse Phrase.Block ∧
      ParsesExactly Program.parse Phrase.Program :=
  ⟨.of_accepts fun _ _ => Expr.parse_eq_ok, .of_accepts fun _ _ => Stmt.parse_eq_ok,
    .of_accepts fun _ _ => Program.parse_eq_ok⟩

end WhileLang

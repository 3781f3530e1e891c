import WhileLang.Proofs.Parser.Retracing

/-!
# Productions are retraced

Each production over rules that store results is retraced by the same production over rules that
store none, if the rules it runs are: those that it runs where it starts for as many tokens as
itself, all others for fewer.

Main definitions:

- Predicate {lit}`RetracedBelow`: rules that are retraced where fewer tokens are left.

Main results:

- Theorems {lit}`Retraces.expression`, {lit}`Retraces.program` and {lit}`Retraces.production`.
-/

namespace WhileLang

open Grammar (Production Rules)

variable {ι : Type} {tokens more : List Token} {left : Nat}

/-- The rules are retraced by others where fewer tokens than a number are left. -/
def RetracedBelow (tokens more : List Token) (left : Nat) (rules : Rules) (reruns : ι → Rules) :
    Prop :=
  ∀ fewer, fewer < left → ∀ rule,
    Retraces tokens more fewer (rules rule) (fun i => reruns i rule) rule.phrase

namespace Retraces

/-! ## Words -/

theorem identifier :
    Retraces tokens more left Grammar.identifier (fun _ : ι => Grammar.identifier)
      Phrase.Identifier := by
  have hfits : (Lexeme.identifier "").Fits := trivial
  exact (tag .variable nofun hfits rfl).widen fun _ _ => Reads.identifier_iff.1

theorem variableName {language : Language Expr}
    (hvar : ∀ name, language [.identifier name] (.var name)) :
    Retraces tokens more left Grammar.variableName (fun _ : ι => Grammar.variableName)
      language := by
  refine (identifier.map _).widen ?_
  rintro _ _ ⟨name, ⟨⟩, rfl⟩
  exact hvar name

theorem boolean :
    Retraces tokens more left Grammar.boolean (fun _ : ι => Grammar.boolean) Phrase.Boolean := by
  have hfits : (Lexeme.reserved .trueWord).Fits := trivial
  exact ((tag .boolean nofun hfits rfl).map _).widen fun _ _ => Reads.boolean_iff.1

theorem digits :
    Retraces tokens more left (Parser.tag .number) (fun _ : ι => Parser.tag .number)
      fun u digits => u = [.integer digits] :=
  (tag .number nofun Lexeme.fits_zero rfl).widen fun _ _ => Reads.digits_iff.1

theorem signedNumber :
    Retraces tokens more left Grammar.number (fun _ : ι => Grammar.number) Phrase.Number := by
  have hsign : Retraces tokens more left (Parser.optional (Parser.literal "-"))
      (fun _ : ι => Parser.optional (Parser.literal "-")) (Language.word .minus).option :=
    (Retraces.word .minus rfl).optional
  exact number (hsign.seq (fun _ _ _ _ => digits) ⟨[.integer "0"], "0", rfl⟩)

/-- A symbol that stands for a value. -/
theorem symbol {α : Type} (word : Reserved) {value : α} {language : Language α}
    (hvalue : language [.reserved word] value) (hword : (Lexeme.reserved word).tag = .symbol) :
    Retraces tokens more left ((Parser.literal word.text).map fun _ => value)
      (fun _ : ι => (Parser.literal word.text).map fun _ => value) language := by
  refine ((Retraces.word word hword).map _).widen ?_
  rintro _ _ ⟨_, ⟨rfl, _⟩, rfl⟩
  exact hvalue

theorem mathOperator :
    Retraces tokens more left Grammar.mathOperator (fun _ : ι => Grammar.mathOperator)
      Phrase.MathOperator :=
  (symbol .plus .add rfl).or (symbol .minus .sub rfl)

theorem logicOperator :
    Retraces tokens more left Grammar.logicOperator (fun _ : ι => Grammar.logicOperator)
      Phrase.LogicOperator :=
  (symbol .logicalAnd .and rfl).or (symbol .logicalOr .or rfl)

theorem comparisonSymbol (word : Reserved) {op : CompareOp}
    (hop : Phrase.ComparisonOperator [.reserved word] op)
    (hword : (Lexeme.reserved word).tag = .symbol) (hsymbol : op.symbol = word.text) :
    Retraces tokens more left (Grammar.comparisonSymbol op)
      (fun _ : ι => Grammar.comparisonSymbol op) Phrase.ComparisonOperator := by
  unfold Grammar.comparisonSymbol
  rw [hsymbol]
  exact symbol word hop hword

theorem comparisonOperator :
    Retraces tokens more left Grammar.comparisonOperator (fun _ : ι => Grammar.comparisonOperator)
      Phrase.ComparisonOperator :=
  (((((comparisonSymbol .lessThan .lt rfl rfl).or (comparisonSymbol .lessEquals .le rfl rfl)).or
    (comparisonSymbol .greaterThan .gt rfl rfl)).or
    (comparisonSymbol .greaterEquals .ge rfl rfl)).or
    (comparisonSymbol .doubleEquals .eq rfl rfl)).or (comparisonSymbol .notEquals .ne rfl rfl)

/-! ## Expressions -/

section

variable {rules : Rules} {reruns : ι → Rules}

theorem expression
    (hlogic : Retraces tokens more left (rules .logic) (fun i => reruns i .logic) Phrase.Logic)
    (harithmetic : Retraces tokens more left (rules .arithmetic) (fun i => reruns i .arithmetic)
      Phrase.Arithmetic) :
    Retraces tokens more left (Grammar.expression rules) (fun i => Grammar.expression (reruns i))
      Phrase.Expression :=
  ((hlogic.widen fun _ _ => .logic).or (harithmetic.widen fun _ _ => .arithmetic)).label
    List.mem_cons_self Phrase.viable_expression

theorem expression_below (h : RetracedBelow tokens more left rules reruns) {fewer : Nat}
    (hfewer : fewer < left) :
    Retraces tokens more fewer (Grammar.expression rules) (fun i => Grammar.expression (reruns i))
      Phrase.Expression :=
  expression (h fewer hfewer .logic) (h fewer hfewer .arithmetic)

theorem call (h : RetracedBelow tokens more left rules reruns) :
    Retraces tokens more left (Grammar.call rules) (fun i => Grammar.call (reruns i))
      Phrase.Call := by
  have hname : Retraces tokens more left (Grammar.identifier.skip (Parser.literal "("))
      (fun _ : ι => Grammar.identifier.skip (Parser.literal "("))
      (Language.before Phrase.Identifier .leftParen) :=
    identifier.skipWord .leftParen rfl
  have hargs : ∀ u name, Language.before Phrase.Identifier .leftParen u name → u.length ≤ left →
      Retraces tokens more (left - u.length) (Grammar.commaList (Grammar.expression rules))
        (fun i => Grammar.commaList (Grammar.expression (reruns i)))
        (CommaList Phrase.Expression) := by
    rintro _ _ ⟨v, rfl, _⟩ hlength
    rw [List.length_append, List.length_cons] at hlength ⊢
    exact (expression_below h (by omega)).commaList Phrase.viable_expression
  exact (((hname.seq hargs (Language.viable_nil .none)).skipWord .rightParen rfl).map _).widen
    fun _ _ => Reads.call_iff.1

/-- What is read in parentheses. -/
theorem parenthesized {α : Type} {parser : Production α} {reparsers : ι → Production α}
    {language : Language α}
    (h : 0 < left → Retraces tokens more (left - 1) parser reparsers language)
    (hviable : language.Viable []) :
    Retraces tokens more left (((Parser.literal "(").skipLeft parser).skip (Parser.literal ")"))
      (fun i => ((Parser.literal "(").skipLeft (reparsers i)).skip (Parser.literal ")"))
      ((language.behind .leftParen).before .rightParen) :=
  (afterWord .leftParen rfl h hviable).skipWord .rightParen rfl

theorem arithmeticTerm (h : RetracedBelow tokens more left rules reruns) :
    Retraces tokens more left (Grammar.arithmeticTerm rules)
      (fun i => Grammar.arithmeticTerm (reruns i)) Phrase.ArithmeticTerm := by
  have hgroup := parenthesized (fun hpos => h (left - 1) (by omega) .arithmetic)
    Phrase.viable_arithmetic
  refine ((signedNumber.widen fun _ _ => .number).or (variableName .var)).or (hgroup.widen ?_)
  rintro _ _ ⟨_, rfl, v, rfl, hv⟩
  exact .group hv

theorem arithmetic (h : RetracedBelow tokens more left rules reruns) :
    Retraces tokens more left (Grammar.arithmetic rules) (fun i => Grammar.arithmetic (reruns i))
      Phrase.Arithmetic := by
  have hoperand : Retraces tokens more left ((Grammar.call rules).or (Grammar.arithmeticTerm rules))
      (fun i => (Grammar.call (reruns i)).or (Grammar.arithmeticTerm (reruns i)))
      Phrase.ArithmeticOperand :=
    ((call h).widen fun _ _ => .call).or ((arithmeticTerm h).widen fun _ _ => .term)
  exact (hoperand.chainLeft mathOperator (Language.viable_nil (.term (.var "")))
    joins_mathOperator.progress).widen fun _ _ => .chain

theorem comparison
    (harithmetic : Retraces tokens more left (rules .arithmetic) (fun i => reruns i .arithmetic)
      Phrase.Arithmetic) :
    Retraces tokens more left (Grammar.comparison rules) (fun i => Grammar.comparison (reruns i))
      Phrase.Comparison := by
  have hleft := harithmetic.seq (fun _ _ _ _ => comparisonOperator) (Language.viable_nil .lt)
  refine ((hleft.seq (fun u _ _ _ => ?_) Phrase.viable_arithmetic).map _).widen
    fun _ _ => Reads.comparison_iff.1
  exact harithmetic.mono (Nat.sub_le left u.length) fun _ _ => id

theorem logicTerm (h : RetracedBelow tokens more left rules reruns)
    (harithmetic : Retraces tokens more left (rules .arithmetic) (fun i => reruns i .arithmetic)
      Phrase.Arithmetic) :
    Retraces tokens more left (Grammar.logicTerm rules) (fun i => Grammar.logicTerm (reruns i))
      Phrase.LogicTerm := by
  have hnot := (afterWord .logicalNot rfl (fun hpos => h (left - 1) (by omega) .logicTerm)
    Phrase.viable_logicTerm).map Expr.not
  have hgroup := parenthesized (fun hpos => h (left - 1) (by omega) .logic) Phrase.viable_logic
  refine ((((boolean.widen fun _ _ => .boolean).or
    ((comparison harithmetic).widen fun _ _ => .comparison)).or (hnot.widen ?_)).or
    (variableName .var)).or (hgroup.widen ?_)
  · rintro _ _ ⟨_, ⟨v, rfl, hv⟩, rfl⟩
    exact .not hv
  · rintro _ _ ⟨_, rfl, v, rfl, hv⟩
    exact .group hv

theorem logic (h : RetracedBelow tokens more left rules reruns)
    (hterm : Retraces tokens more left (rules .logicTerm) (fun i => reruns i .logicTerm)
      Phrase.LogicTerm) :
    Retraces tokens more left (Grammar.logic rules) (fun i => Grammar.logic (reruns i))
      Phrase.Logic := by
  have hoperand : Retraces tokens more left ((Grammar.call rules).or (rules .logicTerm))
      (fun i => (Grammar.call (reruns i)).or (reruns i .logicTerm)) Phrase.LogicOperand :=
    ((call h).widen fun _ _ => .call).or (hterm.widen fun _ _ => .term)
  exact (hoperand.chainLeft logicOperator (Language.viable_nil (.term (.var "")))
    joins_logicOperator.progress).widen fun _ _ => .chain

/-! ## Statements -/

theorem assignment (h : RetracedBelow tokens more left rules reruns) :
    Retraces tokens more left (Grammar.assignment rules) (fun i => Grammar.assignment (reruns i))
      Reads.assignments := by
  have hname : Retraces tokens more left (Grammar.identifier.skip (Parser.literal ":="))
      (fun _ : ι => Grammar.identifier.skip (Parser.literal ":="))
      (Language.before Phrase.Identifier .assign) :=
    identifier.skipWord .assign rfl
  refine (hname.seq ?_ Phrase.viable_expression).map _
  rintro _ _ ⟨v, rfl, _⟩ hlength
  rw [List.length_append, List.length_cons] at hlength ⊢
  exact expression_below h (by omega)

/-- A condition behind a word, with a block. -/
theorem conditionedBlock (h : RetracedBelow tokens more left rules reruns) (word : Reserved)
    (hword : (Lexeme.reserved word).tag = .symbol) :
    Retraces tokens more left
      (((Parser.literal word.text).skipLeft (rules .logic)).seq (rules .block))
      (fun i => ((Parser.literal word.text).skipLeft (reruns i .logic)).seq (reruns i .block))
      (Reads.conditioned word) := by
  have hcondition := afterWord word hword (fun hpos => h (left - 1) (by omega) .logic)
    Phrase.viable_logic
  refine hcondition.seq ?_ Phrase.viable_block
  rintro _ _ ⟨v, rfl, _⟩ hlength
  rw [List.length_cons] at hlength ⊢
  exact h _ (by omega) .block

theorem conditional (h : RetracedBelow tokens more left rules reruns) :
    Retraces tokens more left (Grammar.conditional rules) (fun i => Grammar.conditional (reruns i))
      Reads.conditionals := by
  have halternative : ∀ u pair, Reads.conditioned .ifWord u pair → u.length ≤ left →
      Retraces tokens more (left - u.length)
        (Parser.optional ((Parser.literal "else").skipLeft (rules .block)))
        (fun i => Parser.optional ((Parser.literal "else").skipLeft (reruns i .block)))
        (Language.behind Phrase.Block .elseWord).option := fun u _ _ _ =>
    (afterWord .elseWord rfl (fun hpos => h _ (by omega) .block) Phrase.viable_block).optional
  exact (((conditionedBlock h .ifWord rfl).seq halternative
    ⟨[], none, rfl⟩).skipWord .endWord rfl).map _

theorem loop (h : RetracedBelow tokens more left rules reruns) :
    Retraces tokens more left (Grammar.loop rules) (fun i => Grammar.loop (reruns i)) Reads.loops :=
  ((conditionedBlock h .whileWord rfl).skipWord .endWord rfl).map _

theorem block (h : RetracedBelow tokens more left rules reruns) :
    Retraces tokens more left (Grammar.block rules) (fun i => Grammar.block (reruns i))
      Phrase.Block := by
  have hviable : Language.Viable Phrase.Statement [] := by
    obtain ⟨u, tree, hvalue⟩ := Phrase.viable_expression
    exact Language.viable_nil (.assign "" hvalue)
  have hassignment := (assignment h).widen fun _ _ hu => Reads.statement_iff.1 (.inl (.inl hu))
  have hconditional := (conditional h).widen fun _ _ hu => Reads.statement_iff.1 (.inl (.inr hu))
  have hloop := (loop h).widen fun _ _ hu => Reads.statement_iff.1 (.inr hu)
  have hstatement := ((hassignment.or hconditional).or hloop).label
    (List.mem_cons_of_mem _ List.mem_cons_self) hviable
  have hsemicolon : Retraces tokens more left ((Parser.literal ";").map fun _ => Stmt.seq)
      (fun _ : ι => (Parser.literal ";").map fun _ => Stmt.seq) Phrase.Semicolon :=
    ((Retraces.word .semicolon rfl).map _).widen fun _ _ => Reads.semicolon_iff.1
  refine (hstatement.chainLeft hsemicolon hviable ?_).widen fun _ _ => .chain
  rintro _ _ ⟨⟩
  exact Nat.one_pos

/-! ## Programs -/

theorem header :
    Retraces tokens more left (((Parser.literal "func").skipLeft Grammar.identifier).seq
        (((Parser.literal "(").skipLeft (Grammar.commaList Grammar.identifier)).skip
          (Parser.literal ")")))
      (fun _ : ι => ((Parser.literal "func").skipLeft Grammar.identifier).seq
        (((Parser.literal "(").skipLeft (Grammar.commaList Grammar.identifier)).skip
          (Parser.literal ")")))
      Reads.headers := by
  have hname : Retraces tokens more left ((Parser.literal "func").skipLeft Grammar.identifier)
      (fun _ : ι => (Parser.literal "func").skipLeft Grammar.identifier)
      (Language.behind Phrase.Identifier .funcWord) :=
    afterWord .funcWord rfl (fun _ => identifier) Phrase.viable_identifier
  exact hname.seq (fun _ _ _ _ => parenthesized
    (fun _ => identifier.commaList Phrase.viable_identifier) (Language.viable_nil .none))
    (Language.viable_nil ⟨_, rfl, [], rfl, .none⟩)

theorem body (h : RetracedBelow tokens more left rules reruns) :
    Retraces tokens more left
      (((Parser.literal "\x7b").skipLeft (Parser.optional (rules .block))).skip
        (Parser.optional (Parser.literal ";")))
      (fun i => ((Parser.literal "\x7b").skipLeft (Parser.optional (reruns i .block))).skip
        (Parser.optional (Parser.literal ";")))
      (Language.behind Phrase.Body .leftBrace) := by
  have hblock := afterWord .leftBrace rfl
    (fun hpos => (h (left - 1) (by omega) .block).optional) ⟨[], none, rfl⟩
  have hsemicolon : ∀ fewer, Retraces tokens more fewer (Parser.optional (Parser.literal ";"))
      (fun _ : ι => Parser.optional (Parser.literal ";")) (Language.word .semicolon).option :=
    fun fewer => (Retraces.word .semicolon rfl).optional
  exact (hblock.andThen (fun _ value _ _ => (hsemicolon _).map fun _ => value)
    fun _ => Language.viable_nil ⟨none, rfl, rfl⟩).widen fun _ _ => Reads.body_iff.1

theorem returned (h : RetracedBelow tokens more left rules reruns) :
    Retraces tokens more left
      (((Parser.literal "return").skipLeft (Grammar.expression rules)).skip (Parser.literal "\x7d"))
      (fun i => ((Parser.literal "return").skipLeft (Grammar.expression (reruns i))).skip
        (Parser.literal "\x7d"))
      ((Language.behind Phrase.Expression .returnWord).before .rightBrace) :=
  (afterWord .returnWord rfl (fun hpos => expression_below h (by omega))
    Phrase.viable_expression).skipWord .rightBrace rfl

theorem function (h : RetracedBelow tokens more left rules reruns) :
    Retraces tokens more left (Grammar.function rules) (fun i => Grammar.function (reruns i))
      Phrase.Function := by
  have hbody : ∀ u pair, Reads.headers u pair → u.length ≤ left →
      Retraces tokens more (left - u.length) _ _ (Language.behind Phrase.Body .leftBrace) :=
    fun u _ _ _ => body fun fewer hfewer => h fewer (by omega)
  have hresult : ∀ u pair, Reads.headers.seq (Language.behind Phrase.Body .leftBrace) u pair →
      u.length ≤ left → Retraces tokens more (left - u.length) _ (fun _ : ι => _) _ :=
    fun u _ _ _ => returned fun fewer hfewer => h fewer (by omega)
  obtain ⟨v, tree, hv⟩ := Phrase.viable_expression
  exact (((header.seq hbody (Language.viable_nil ⟨_, rfl, .none⟩)).seq hresult
    (Language.viable_nil ⟨_, rfl, _, rfl, hv⟩)).map _).widen fun _ _ => Reads.function_iff.1

theorem program (h : RetracedBelow tokens more left rules reruns) :
    Retraces tokens more left (Grammar.program rules) (fun i => Grammar.program (reruns i))
      Phrase.Program :=
  (((function h).separated Phrase.viable_function .semicolon rfl).map _).widen
    fun _ _ => Reads.program_iff.1

/-! ## Rules -/

/-- The body of a rule is retraced, where it runs rules of a smaller rank for as many tokens. -/
theorem production (rule : Nonterminal) (hbelow : RetracedBelow tokens more left rules reruns)
    (hlower : ∀ other : Nonterminal, other.rank < rule.rank →
      Retraces tokens more left (rules other) (fun i => reruns i other) other.phrase) :
    Retraces tokens more left (Grammar.production rules rule)
      (fun i => Grammar.production (reruns i) rule) rule.phrase := by
  cases rule with
  | arithmetic => exact arithmetic hbelow
  | logicTerm => exact logicTerm hbelow (hlower .arithmetic (by decide))
  | logic => exact logic hbelow (hlower .logicTerm (by decide))
  | block => exact block hbelow

end

end Retraces

end WhileLang

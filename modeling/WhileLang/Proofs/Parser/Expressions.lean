import WhileLang.Proofs.Grammar.Coherence
import WhileLang.Proofs.Parser.Choice

/-!
# Productions of expressions read their phrases

Each production reads the phrases of its category, if the rules it runs do so: those that it runs
where it starts for as many lexemes as itself, all others for fewer.

Main definitions:

- Predicate {lit}`ReadBelow`: rules that read their phrases where fewer lexemes are left.

Main results:

- Theorems {lit}`Reads.call`, {lit}`Reads.arithmetic`, {lit}`Reads.logicTerm`, {lit}`Reads.logic`
  and {lit}`Reads.expression`.
-/

namespace WhileLang

open Grammar (Production Rules State)

/-- The rules read their phrases where fewer lexemes than a number are left. -/
def ReadBelow (left : Nat) (rules : Rules) : Prop :=
  ∀ fewer, fewer < left → ∀ rule, Reads fewer (rules rule) rule.phrase rule.follow

/-- Operators that join items are not empty. -/
theorem Joins.progress {operators : Language (Expr → Expr → Expr)}
    {operator? : Lexeme → Option (Expr → Expr → Expr)} {continuesItem continues : Lexeme → Bool}
    (h : Joins operators operator? continuesItem continues) (u : List Lexeme)
    (combine : Expr → Expr → Expr) (hu : operators u combine) : 0 < u.length := by
  obtain ⟨lexeme, rfl, -⟩ := h.reads u combine hu
  exact Nat.one_pos

/-- Operators that join items cut a chain of them at the right places. -/
theorem Joins.separates {items : Language Expr} {operators : Language (Expr → Expr → Expr)}
    {operator? : Lexeme → Option (Expr → Expr → Expr)} {continuesItem continues : Lexeme → Bool}
    (h : Joins operators operator? continuesItem continues) :
    Separates items operators (StopsBefore continuesItem) (StopsBefore continues) where
  progress := h.progress
  between u rest combine hu := by
    obtain ⟨lexeme, rfl, -, hstops⟩ := h.reads u combine hu
    exact stopsBefore_cons.2 hstops
  last rest hrest lexeme hhead := h.stopsItem lexeme (hrest lexeme hhead)
  stops u v rest combine value hu _ hrest := by
    obtain ⟨lexeme, rfl, hoperator, -⟩ := h.reads u combine hu
    have hcontinues := h.goesOn lexeme combine hoperator
    rw [stopsBefore_cons.1 hrest] at hcontinues
    cases hcontinues

namespace Reads

variable {left : Nat} {follow : List Lexeme → Prop}

/-! ## Words -/

theorem identifier_iff {u : List Lexeme} {name : String} :
    Language.satisfying (·.tag = .variable) u name ↔ Phrase.Identifier u name := by
  constructor
  · rintro ⟨lexeme, rfl, htag, rfl⟩
    cases lexeme with
    | reserved word => cases word <;> cases htag
    | identifier name => exact .intro name
    | integer digits => cases htag
  · rintro ⟨⟩
    exact ⟨_, rfl, rfl, rfl⟩

theorem identifier : Reads left Grammar.identifier Phrase.Identifier follow :=
  (satisfy _ _).congr fun _ _ => identifier_iff

/-- A variable, as an alternative of what has variables. -/
theorem variableName {whole : Language Expr} (hvar : ∀ name, whole [.identifier name] (.var name)) :
    ReadsPart left Grammar.variableName
      (fun u tree => ∃ name, u = [.identifier name] ∧ tree = .var name) whole follow := by
  refine ⟨(identifier.map _).congr fun u tree => ?_, ?_⟩
  · constructor
    · rintro ⟨name, ⟨⟩, rfl⟩
      exact ⟨name, rfl, rfl⟩
    · rintro ⟨name, rfl, rfl⟩
      exact ⟨name, .intro name, rfl⟩
  · rintro _ _ ⟨name, rfl, rfl⟩
    exact hvar name

theorem boolean_iff {u : List Lexeme} {tree : Expr} :
    ((Language.satisfying (·.tag = .boolean)).map fun text => .bool (text = "true")) u tree ↔
      Phrase.Boolean u tree := by
  constructor
  · rintro ⟨_, ⟨lexeme, rfl, htag, rfl⟩, rfl⟩
    cases lexeme with
    | reserved word => cases word <;> first | exact .true | exact .false | cases htag
    | identifier name => cases htag
    | integer digits => cases htag
  · rintro (_ | _)
    · exact ⟨"true", ⟨.reserved .trueWord, rfl, rfl, rfl⟩, rfl⟩
    · exact ⟨"false", ⟨.reserved .falseWord, rfl, rfl, rfl⟩, rfl⟩

theorem boolean : Reads left Grammar.boolean Phrase.Boolean follow :=
  ((satisfy _ _).map _).congr fun _ _ => boolean_iff

theorem digits_iff {u : List Lexeme} {digits : String} :
    Language.satisfying (·.tag = .number) u digits ↔ u = [.integer digits] := by
  constructor
  · rintro ⟨lexeme, rfl, htag, rfl⟩
    cases lexeme with
    | reserved word => cases word <;> cases htag
    | identifier name => cases htag
    | integer digits => rfl
  · rintro rfl
    exact ⟨_, rfl, rfl, rfl⟩

/-- Digits by themselves. -/
theorem digits :
    Reads left (Parser.tag .number) (fun u digits => u = [.integer digits]) follow :=
  (satisfy _ _).congr fun _ _ => digits_iff

/-- Digits that may have a sign, whether they are an integer or not. -/
theorem signedDigits :
    Reads left ((Parser.optional (Parser.literal "-")).seq (Parser.tag .number))
      ((Language.word .minus).option.seq fun u digits => u = [.integer digits]) follow := by
  have hsign : Reads left (Parser.optional (Parser.literal "-")) (Language.word .minus).option
      (fun rest => ∃ digits other, rest = .integer digits :: other) := by
    have hminus : Reads left (Parser.literal "-") (Language.word .minus) fun _ => True :=
      Reads.word .minus rfl
    refine hminus.optional (fun _ _ => trivial) ?_
    rintro _ _ rest ⟨rfl, _⟩ ⟨_, _, heq⟩
    cases heq
  refine hsign.seq (fun _ _ _ _ => digits) ?_
  rintro _ digits rest rfl _
  exact ⟨digits, rest, rfl⟩

/-- A number is an integer that is read from digits with their sign. -/
theorem number_iff {u : List Lexeme} {tree : Expr} :
    Phrase.Number u tree ↔ ∃ pair : Option String × String,
      (Language.word .minus).option.seq (fun u digits => u = [.integer digits]) u pair ∧
        ∃ value, Decimal.readInt64 (pair.1.getD "" ++ pair.2) = .ok value ∧ tree = .int value := by
  constructor
  · intro hnumber
    cases hnumber with
    | @unsigned digits value h =>
      refine ⟨(none, digits), ⟨[], _, none, rfl, rfl, digits, rfl, rfl⟩, value, ?_, rfl⟩
      rw [Option.getD_none, String.empty_append]
      exact Decimal.readInt64_eq_ok.2 h
    | @negative digits value h =>
      exact ⟨(some "-", digits), ⟨[_], _, some "-", rfl, ⟨rfl, rfl⟩, digits, rfl, rfl⟩, value,
        Decimal.readInt64_eq_ok.2 h, rfl⟩
  · rintro ⟨_, ⟨u, _, sign, rfl, hsign, digits, rfl, rfl⟩, value, hread, rfl⟩
    cases sign with
    | none =>
      have hempty : u = [] := hsign
      rw [Option.getD_none, String.empty_append] at hread
      rw [hempty]
      exact .unsigned (Decimal.readInt64_eq_ok.1 hread)
    | some text =>
      obtain ⟨rfl, rfl⟩ := hsign
      exact .negative (Decimal.readInt64_eq_ok.1 hread)

theorem number : Reads left Grammar.number Phrase.Number follow := by
  intro state hremembers hlength
  have hdigits : Reads left _ _ follow := signedDigits
  obtain ⟨htokens, hafter, hsettles⟩ := hdigits state hremembers hlength
  unfold Grammar.number
  rcases hparse : ((Parser.optional (Parser.literal "-")).seq (Parser.tag .number)) state with
    ⟨result, after⟩
  simp only [hparse] at htokens hafter hsettles
  cases result with
  | error error =>
    refine ⟨htokens, hafter, nofun, fun {u rest tree} hnumber hsplit hrest => ?_⟩
    obtain ⟨pair, hpair, -⟩ := number_iff.1 hnumber
    exact nomatch (hsettles.complete hpair hsplit hrest).1
  | ok pair =>
    obtain ⟨sign, digits⟩ := pair
    dsimp only
    cases hread : Decimal.readInt64 (sign.getD "" ++ digits) with
    | ok value =>
      refine ⟨htokens, hafter, ?_, fun {u rest tree} hnumber hsplit hrest => ?_⟩
      · rintro _ ⟨⟩
        obtain ⟨u, rest, hsplit, hstop, hpair⟩ := hsettles.sound rfl
        exact ⟨u, rest, hsplit, hstop, number_iff.2 ⟨_, hpair, value, hread, rfl⟩⟩
      · obtain ⟨pair, hpair, other, hother, rfl⟩ := number_iff.1 hnumber
        obtain ⟨hok, hstop⟩ := hsettles.complete hpair hsplit hrest
        rw [← Except.ok.inj hok, hread] at hother
        rw [Except.ok.inj hother]
        exact ⟨rfl, hstop⟩
    | error error =>
      refine ⟨htokens, hafter.of_memory rfl rfl, nofun, ?_⟩
      intro u rest tree hnumber hsplit hrest
      obtain ⟨pair, hpair, other, hother, rfl⟩ := number_iff.1 hnumber
      obtain ⟨hok, -⟩ := hsettles.complete hpair hsplit hrest
      rw [← Except.ok.inj hok, hread] at hother
      cases hother

/-! ## Operators -/

/-- Lexemes that stand for one value each are coherent. -/
theorem coherent_of_function {α : Type} {language : Language α} {value? : Lexeme → Option α}
    (h : ∀ u value, language u value → ∃ lexeme, u = [lexeme] ∧ value? lexeme = some value) :
    Coherent language language follow := by
  intro u v rest other a b hu hv hsame _
  obtain ⟨lexeme, rfl, hvalue⟩ := h u a hu
  obtain ⟨lexeme', rfl, hvalue'⟩ := h v b hv
  injection hsame with hlexeme _
  rw [← hlexeme, hvalue] at hvalue'
  exact ⟨Nat.le_refl _, fun _ => Option.some.inj hvalue'⟩

theorem coherent_mathOperator : Coherent Phrase.MathOperator Phrase.MathOperator follow :=
  coherent_of_function fun u combine hu =>
    let ⟨lexeme, hlexeme, hoperator, _⟩ := joins_mathOperator.reads u combine hu
    ⟨lexeme, hlexeme, hoperator⟩

theorem mathOperator : Reads left Grammar.mathOperator Phrase.MathOperator follow := by
  refine ((ReadsPart.symbol .plus .add rfl).or coherent_mathOperator
    (.symbol .minus .sub rfl)).covers ?_
  rintro _ _ (_ | _)
  · exact .inl ⟨rfl, rfl⟩
  · exact .inr ⟨rfl, rfl⟩

theorem coherent_logicOperator : Coherent Phrase.LogicOperator Phrase.LogicOperator follow :=
  coherent_of_function fun u combine hu =>
    let ⟨lexeme, hlexeme, hoperator, _⟩ := joins_logicOperator.reads u combine hu
    ⟨lexeme, hlexeme, hoperator⟩

theorem logicOperator : Reads left Grammar.logicOperator Phrase.LogicOperator follow := by
  refine ((ReadsPart.symbol .logicalAnd .and rfl).or coherent_logicOperator
    (.symbol .logicalOr .or rfl)).covers ?_
  rintro _ _ (_ | _)
  · exact .inl ⟨rfl, rfl⟩
  · exact .inr ⟨rfl, rfl⟩

theorem coherent_comparisonOperator :
    Coherent Phrase.ComparisonOperator Phrase.ComparisonOperator follow := by
  have hfunction : ∀ u op, Phrase.ComparisonOperator u op →
      ∃ lexeme, u = [lexeme] ∧ Descent.compareOperator? lexeme = some op := by
    rintro _ _ (_ | _ | _ | _ | _ | _) <;> exact ⟨_, rfl, rfl⟩
  exact coherent_of_function hfunction

theorem comparisonSymbol (word : Reserved) {op : CompareOp}
    (hop : Phrase.ComparisonOperator [.reserved word] op)
    (hword : (Lexeme.reserved word).tag = .symbol) (hsymbol : op.symbol = word.text) :
    ReadsPart left (Grammar.comparisonSymbol op)
      (fun u other => u = [.reserved word] ∧ other = op) Phrase.ComparisonOperator follow := by
  unfold Grammar.comparisonSymbol
  rw [hsymbol]
  exact .symbol word hop hword

theorem comparisonOperator :
    Reads left Grammar.comparisonOperator Phrase.ComparisonOperator follow := by
  have hcoherent : Coherent Phrase.ComparisonOperator _ follow := coherent_comparisonOperator
  have hlt : ReadsPart left _ _ _ follow := comparisonSymbol .lessThan .lt rfl rfl
  unfold Grammar.comparisonOperator
  refine (((((hlt.or hcoherent (comparisonSymbol .lessEquals .le rfl rfl)).or hcoherent
    (comparisonSymbol .greaterThan .gt rfl rfl)).or hcoherent
    (comparisonSymbol .greaterEquals .ge rfl rfl)).or hcoherent
    (comparisonSymbol .doubleEquals .eq rfl rfl)).or hcoherent
    (comparisonSymbol .notEquals .ne rfl rfl)).covers ?_
  rintro _ _ (_ | _ | _ | _ | _ | _)
  · exact .inl (.inl (.inl (.inl (.inl ⟨rfl, rfl⟩))))
  · exact .inl (.inl (.inl (.inl (.inr ⟨rfl, rfl⟩))))
  · exact .inl (.inl (.inl (.inr ⟨rfl, rfl⟩)))
  · exact .inl (.inl (.inr ⟨rfl, rfl⟩))
  · exact .inl (.inr ⟨rfl, rfl⟩)
  · exact .inr ⟨rfl, rfl⟩

/-! ## Expressions -/

section

variable {rules : Rules}

/-- Either kind of expression, where the rules for both read as far. -/
theorem expression
    (hlogic : Reads left (rules .logic) Phrase.Logic (StopsBefore Lexeme.continuesLogic))
    (harithmetic : Reads left (rules .arithmetic) Phrase.Arithmetic
      (StopsBefore Lexeme.continuesArithmetic)) :
    Reads left (Grammar.expression rules) Phrase.Expression
      (StopsBefore Lexeme.continuesLogic) := by
  have harithmetic : Reads left (rules .arithmetic) Phrase.Arithmetic
      (StopsBefore Lexeme.continuesLogic) :=
    harithmetic.mono (Nat.le_refl left) fun rest hrest lexeme hhead =>
      continuesArithmetic_of_comparison (joins_logicOperator.stopsItem lexeme (hrest lexeme hhead))
  have hboth := ReadsPart.or ⟨hlogic, fun _ _ => .logic⟩ coherent_expression
    ⟨harithmetic, fun _ _ => .arithmetic⟩
  refine Reads.label (hboth.covers fun u tree h => ?_) "expression"
  cases h with
  | logic h => exact .inl h
  | arithmetic h => exact .inr h

theorem expression_below (h : ReadBelow left rules) {fewer : Nat} (hfewer : fewer < left) :
    Reads fewer (Grammar.expression rules) Phrase.Expression (StopsBefore Lexeme.continuesLogic) :=
  expression (h fewer hfewer .logic) (h fewer hfewer .arithmetic)

/-- A call is a name with arguments in parentheses. -/
theorem call_iff {u : List Lexeme} {tree : Expr} :
    ((((Language.before Phrase.Identifier .leftParen).seq (CommaList Phrase.Expression)).before
      .rightParen).map fun (name, args) => .call name args) u tree ↔ Phrase.Call u tree := by
  constructor
  · rintro ⟨_, ⟨_, rfl, _, _, name, rfl, ⟨_, rfl, ⟨⟩⟩, args, hargs, rfl⟩, rfl⟩
    exact .intro name hargs
  · intro hcall
    cases hcall with
    | intro name hargs =>
      exact ⟨_, ⟨_, rfl, [_, _], _, _, rfl, ⟨[_], rfl, .intro name⟩, _, hargs, rfl⟩, rfl⟩

theorem call (h : ReadBelow left rules) : Reads left (Grammar.call rules) Phrase.Call follow := by
  have hname : Reads left (Grammar.identifier.skip (Parser.literal "("))
      (Language.before Phrase.Identifier .leftParen) fun _ => True :=
    skipWord (identifier : Reads left _ _ fun _ => True) .leftParen rfl fun _ => trivial
  have hargs : ∀ u name, Language.before Phrase.Identifier .leftParen u name → u.length ≤ left →
      Reads (left - u.length) (Grammar.commaList (Grammar.expression rules))
        (CommaList Phrase.Expression) (NextIs .rightParen) := by
    rintro _ _ ⟨v, rfl, ⟨name⟩⟩ hlength
    rw [List.length_append, List.length_cons] at hlength ⊢
    exact (expression_below h (by omega)).commaList
      (fun _ => stopsBefore_cons.2 rfl) (fun _ => stopsBefore_cons.2 rfl)
      Phrase.startsWith_expression rfl
  exact (((hname.seq hargs fun _ _ _ _ _ => trivial).skipWord .rightParen rfl
    fun rest => ⟨rest, rfl⟩).map _).congr fun _ _ => call_iff

/-- What is read in parentheses, whatever follows. -/
theorem parenthesized {α : Type} {parser : Production α} {language : Language α}
    {inner : List Lexeme → Prop} (h : 0 < left → Reads (left - 1) parser language inner)
    (hinner : ∀ rest, inner (.reserved .rightParen :: rest)) :
    Reads left (((Parser.literal "(").skipLeft parser).skip (Parser.literal ")"))
      ((language.behind .leftParen).before .rightParen) follow :=
  (afterWord .leftParen rfl h).skipWord .rightParen rfl hinner

theorem arithmeticTerm (h : ReadBelow left rules) :
    Reads left (Grammar.arithmeticTerm rules) Phrase.ArithmeticTerm
      (StopsBefore Lexeme.continuesOperand) := by
  have hcoherent : Coherent Phrase.ArithmeticTerm Phrase.ArithmeticTerm
      (StopsBefore Lexeme.continuesOperand) :=
    coherent_arithmeticOperand.mono (fun _ _ => .term) (fun _ _ => .term) fun _ hrest => hrest
  have hgroup : ReadsPart left
      (((Parser.literal "(").skipLeft (rules .arithmetic)).skip (Parser.literal ")"))
      ((Language.behind Phrase.Arithmetic .leftParen).before .rightParen) Phrase.ArithmeticTerm
      (StopsBefore Lexeme.continuesOperand) := by
    refine ⟨parenthesized (fun hpos => h (left - 1) (by omega) .arithmetic)
      fun _ => stopsBefore_cons.2 rfl, ?_⟩
    rintro _ _ ⟨_, rfl, v, rfl, hv⟩
    exact .group hv
  have hnumber : ReadsPart left Grammar.number Phrase.Number Phrase.ArithmeticTerm
      (StopsBefore Lexeme.continuesOperand) :=
    ⟨number, fun _ _ => .number⟩
  refine ((hnumber.or hcoherent (variableName .var)).or hcoherent hgroup).covers fun u tree h => ?_
  cases h with
  | number h => exact .inl (.inl h)
  | var name => exact .inl (.inr ⟨name, rfl, rfl⟩)
  | group hv => exact .inr ⟨_ :: _, rfl, _, rfl, hv⟩

theorem arithmetic (h : ReadBelow left rules) :
    Reads left (Grammar.arithmetic rules) Phrase.Arithmetic
      (StopsBefore Lexeme.continuesArithmetic) := by
  have hoperand : Reads left ((Grammar.call rules).or (Grammar.arithmeticTerm rules))
      Phrase.ArithmeticOperand (StopsBefore Lexeme.continuesOperand) := by
    have hboth := ReadsPart.or ⟨call h, fun _ _ => .call⟩ coherent_arithmeticOperand
      ⟨arithmeticTerm h, fun _ _ => .term⟩
    refine hboth.covers fun u tree h => ?_
    cases h with
    | call h => exact .inl h
    | term h => exact .inr h
  exact (hoperand.chainLeft mathOperator joins_mathOperator.separates).congr fun u tree =>
    ⟨fun hchain => .chain hchain, fun ⟨hchain⟩ => hchain⟩

theorem comparison_iff {u : List Lexeme} {tree : Expr} :
    (((Language.seq Phrase.Arithmetic Phrase.ComparisonOperator).seq Phrase.Arithmetic).map
      fun ((left, op), right) => .compare op left right) u tree ↔ Phrase.Comparison u tree := by
  constructor
  · rintro ⟨_, ⟨_, w, _, rfl, ⟨u, v, left, rfl, hu, op, hv, rfl⟩, right, hw, rfl⟩, rfl⟩
    rw [List.append_assoc]
    exact .intro hu hv hw
  · intro hcomparison
    cases hcomparison with
    | intro hu hv hw =>
      exact ⟨_,
        ⟨_, _, _, (List.append_assoc _ _ _).symm, ⟨_, _, _, rfl, hu, _, hv, rfl⟩, _, hw, rfl⟩,
        rfl⟩

/-- Two arithmetic expressions that are compared, where the rule for them reads as far. -/
theorem comparison
    (harithmetic : Reads left (rules .arithmetic) Phrase.Arithmetic
      (StopsBefore Lexeme.continuesArithmetic)) :
    Reads left (Grammar.comparison rules) Phrase.Comparison
      (StopsBefore Lexeme.continuesComparison) := by
  have hleft : Reads left ((rules .arithmetic).seq Grammar.comparisonOperator)
      (Language.seq Phrase.Arithmetic Phrase.ComparisonOperator) fun _ => True := by
    refine harithmetic.seq (fun _ _ _ _ => comparisonOperator) ?_
    rintro _ op rest (_ | _ | _ | _ | _ | _) _ <;> exact stopsBefore_cons.2 rfl
  have hright : ∀ u pair, Language.seq Phrase.Arithmetic Phrase.ComparisonOperator u pair →
      u.length ≤ left → Reads (left - u.length) (rules .arithmetic) Phrase.Arithmetic
        (StopsBefore Lexeme.continuesComparison) := by
    intro u pair _ _
    exact harithmetic.mono (Nat.sub_le left u.length) fun rest hrest lexeme hhead =>
      continuesArithmetic_of_comparison (hrest lexeme hhead)
  exact ((hleft.seq hright fun _ _ _ _ _ => trivial).map _).congr fun _ _ => comparison_iff

theorem logicTerm (h : ReadBelow left rules)
    (harithmetic : Reads left (rules .arithmetic) Phrase.Arithmetic
      (StopsBefore Lexeme.continuesArithmetic)) :
    Reads left (Grammar.logicTerm rules) Phrase.LogicTerm
      (StopsBefore Lexeme.continuesComparison) := by
  have hcoherent : Coherent Phrase.LogicTerm Phrase.LogicTerm
      (StopsBefore Lexeme.continuesComparison) :=
    coherent_logicOperand.mono (fun _ _ => .term) (fun _ _ => .term) fun _ hrest => hrest
  have hboolean : ReadsPart left Grammar.boolean Phrase.Boolean Phrase.LogicTerm
      (StopsBefore Lexeme.continuesComparison) :=
    ⟨boolean, fun _ _ => .boolean⟩
  have hnot : ReadsPart left (((Parser.literal "!").skipLeft (rules .logicTerm)).map Expr.not)
      ((Language.behind Phrase.LogicTerm .logicalNot).map .not) Phrase.LogicTerm
      (StopsBefore Lexeme.continuesComparison) := by
    refine ⟨(afterWord .logicalNot rfl fun hpos => h (left - 1) (by omega) .logicTerm).map _, ?_⟩
    rintro _ _ ⟨tree, ⟨v, rfl, hv⟩, rfl⟩
    exact .not hv
  have hgroup : ReadsPart left
      (((Parser.literal "(").skipLeft (rules .logic)).skip (Parser.literal ")"))
      ((Language.behind Phrase.Logic .leftParen).before .rightParen) Phrase.LogicTerm
      (StopsBefore Lexeme.continuesComparison) := by
    refine ⟨parenthesized (fun hpos => h (left - 1) (by omega) .logic)
      fun _ => stopsBefore_cons.2 rfl, ?_⟩
    rintro _ _ ⟨_, rfl, v, rfl, hv⟩
    exact .group hv
  refine ((((hboolean.or hcoherent ⟨comparison harithmetic, fun _ _ => .comparison⟩).or hcoherent
    hnot).or hcoherent (variableName .var)).or hcoherent hgroup).covers fun u tree h => ?_
  cases h with
  | boolean h => exact .inl (.inl (.inl (.inl h)))
  | comparison h => exact .inl (.inl (.inl (.inr h)))
  | not h => exact .inl (.inl (.inr ⟨_, ⟨_, rfl, h⟩, rfl⟩))
  | var name => exact .inl (.inr ⟨name, rfl, rfl⟩)
  | group h => exact .inr ⟨_ :: _, rfl, _, rfl, h⟩

/-- Operands joined by logical operators, where the rule for terms reads as far. -/
theorem logic (h : ReadBelow left rules)
    (hterm : Reads left (rules .logicTerm) Phrase.LogicTerm
      (StopsBefore Lexeme.continuesComparison)) :
    Reads left (Grammar.logic rules) Phrase.Logic (StopsBefore Lexeme.continuesLogic) := by
  have hoperand : Reads left ((Grammar.call rules).or (rules .logicTerm))
      Phrase.LogicOperand (StopsBefore Lexeme.continuesComparison) := by
    have hboth := ReadsPart.or ⟨call h, fun _ _ => .call⟩ coherent_logicOperand
      ⟨hterm, fun _ _ => .term⟩
    refine hboth.covers fun u tree h => ?_
    cases h with
    | call h => exact .inl h
    | term h => exact .inr h
  exact (hoperand.chainLeft logicOperator joins_logicOperator.separates).congr fun u tree =>
    ⟨fun hchain => .chain hchain, fun ⟨hchain⟩ => hchain⟩

end

end Reads

end WhileLang

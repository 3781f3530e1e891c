import WhileLang.Proofs.Grammar.Phrase

/-!
# Phrases in their context

How languages are put together, and which lexemes may come behind a phrase.  A phrase is cut off
where the next lexeme has no way to continue it.

Main definitions:

- Functions {lit}`Language.bind`, {lit}`Language.or` and {lit}`Language.option`.
- Predicates {lit}`StopsBefore` and {lit}`StopsBlock`: what may follow.
-/

namespace WhileLang

/-! ## Combined languages -/

namespace Language

variable {α β : Type}

/-- Nothing is consumed for a value. -/
def pure (value : α) : Language α := fun u other =>
  u = [] ∧ other = value

/-- One language, then the one that its value selects. -/
def bind (first : Language α) (next : α → Language β) : Language β := fun w result =>
  ∃ u v value, w = u ++ v ∧ first u value ∧ next value v result

def map (language : Language α) (f : α → β) : Language β := fun u result =>
  ∃ value, language u value ∧ result = f value

def seq (first : Language α) (second : Language β) : Language (α × β) :=
  first.bind fun a => second.map fun b => (a, b)

def or (left right : Language α) : Language α := fun u value =>
  left u value ∨ right u value

/-- A phrase of the language, or nothing. -/
def option (language : Language α) : Language (Option α) := fun u value? =>
  match value? with
  | none => u = []
  | some value => language u value

/-- A reserved word, which spells its text. -/
def word (word : Reserved) : Language String := fun u text =>
  u = [.reserved word] ∧ text = word.text

/-- A phrase of the language with a reserved word behind it. -/
def before (language : Language α) (word : Reserved) : Language α := fun u value =>
  ∃ v, u = v ++ [.reserved word] ∧ language v value

/-- A phrase of the language behind a reserved word. -/
def behind (language : Language α) (word : Reserved) : Language α := fun u value =>
  ∃ v, u = .reserved word :: v ∧ language v value

/-- A lexeme that passes a test, which spells its text. -/
def satisfying (accepts : Lexeme → Bool) : Language String := fun u text =>
  ∃ lexeme, u = [lexeme] ∧ accepts lexeme = true ∧ text = lexeme.text

section

variable {language : Language α} {word : Reserved} {u : List Lexeme}

theorem bind_pure_iff {f : α → β} {result : β} :
    (language.bind fun value => pure (f value)) u result ↔ language.map f u result := by
  constructor
  · rintro ⟨v, _, value, rfl, hvalue, rfl, rfl⟩
    exact ⟨value, by rwa [List.append_nil], rfl⟩
  · rintro ⟨value, hvalue, rfl⟩
    exact ⟨u, [], value, (List.append_nil u).symm, hvalue, rfl, rfl⟩

theorem bind_word_iff {value : α} :
    (language.bind fun value => (Language.word word).map fun _ => value) u value ↔
      language.before word u value := by
  constructor
  · rintro ⟨v, _, _, rfl, hvalue, _, ⟨rfl, _⟩, rfl⟩
    exact ⟨v, rfl, hvalue⟩
  · rintro ⟨v, rfl, hvalue⟩
    exact ⟨v, _, value, rfl, hvalue, _, ⟨rfl, rfl⟩, rfl⟩

theorem word_bind_iff {value : α} :
    ((Language.word word).bind fun _ => language) u value ↔ language.behind word u value := by
  constructor
  · rintro ⟨_, v, _, rfl, ⟨rfl, _⟩, hvalue⟩
    exact ⟨v, rfl, hvalue⟩
  · rintro ⟨v, rfl, hvalue⟩
    exact ⟨_, v, _, rfl, ⟨rfl, rfl⟩, hvalue⟩

end

end Language

/-- A chain is an item with the rounds behind it. -/
theorem bind_chainFrom_iff {α : Type} {items : Language α} {separators : Language (α → α → α)}
    {u : List Lexeme} {value : α} :
    items.bind (ChainFrom items separators) u value ↔ Chain items separators u value := by
  constructor
  · rintro ⟨u, v, first, rfl, hfirst, hrest⟩
    exact .intro hfirst hrest
  · rintro ⟨hfirst, hrest⟩
    exact ⟨_, _, _, rfl, hfirst, hrest⟩

/-- Items with commas between them may be missing. -/
theorem map_option_iff {α : Type} {items : Language α} {u : List Lexeme} {values : List α} :
    ((Language.option (SeparatedBy .comma items)).map fun values => values.getD []) u values ↔
      CommaList items u values := by
  constructor
  · rintro ⟨values?, hvalues, rfl⟩
    cases values? with
    | none =>
      have hempty : u = [] := hvalues
      rw [hempty]
      exact .none
    | some values => exact .some hvalues
  · intro h
    cases h with
    | none => exact ⟨none, rfl, rfl⟩
    | some h => exact ⟨some values, h, rfl⟩

/-! ## Languages that overlap -/

/-- Every phrase of a language starts with a lexeme that passes a test. -/
def Language.StartsWith {α : Type} (language : Language α) (starts : Lexeme → Bool) : Prop :=
  ∀ u value, language u value → ∃ lexeme v, u = lexeme :: v ∧ starts lexeme = true

/--
A phrase of one language that ends where it may is no shorter than a phrase of the other language
at the same place, and spells the same if they are equally long.
-/
def Coherent {α : Type} (first second : Language α) (follow : List Lexeme → Prop) : Prop :=
  ∀ u v rest other a b, first u a → second v b → u ++ rest = v ++ other → follow rest →
    v.length ≤ u.length ∧ (v.length = u.length → a = b)

/-- Items with a word between any two start with an item. -/
theorem Language.StartsWith.separatedBy {α : Type} {items : Language α} {starts : Lexeme → Bool}
    (h : items.StartsWith starts) (word : Reserved) :
    Language.StartsWith (SeparatedBy word items) starts := by
  intro u values hvalues
  cases hvalues with
  | one hitem => exact h _ _ hitem
  | cons hitem _ =>
    obtain ⟨lexeme, v, rfl, hstarts⟩ := h _ _ hitem
    exact ⟨lexeme, _, rfl, hstarts⟩

/-- Items with separators between them start with an item. -/
theorem Language.StartsWith.chain {α : Type} {items : Language α} {starts : Lexeme → Bool}
    (h : items.StartsWith starts) (separators : Language (α → α → α)) :
    Language.StartsWith (Chain items separators) starts := by
  rintro _ value ⟨hfirst, _⟩
  obtain ⟨lexeme, v, rfl, hstarts⟩ := h _ _ hfirst
  exact ⟨lexeme, _, rfl, hstarts⟩

namespace Coherent

variable {α : Type} {first second : Language α} {follow : List Lexeme → Prop}

theorem mono {first' second' : Language α} {follow' : List Lexeme → Prop}
    (h : Coherent first second follow) (hfirst : ∀ u a, first' u a → first u a)
    (hsecond : ∀ u a, second' u a → second u a) (hfollow : ∀ rest, follow' rest → follow rest) :
    Coherent first' second' follow' :=
  fun u v rest other a b hu hv hsame hrest =>
    h u v rest other a b (hfirst u a hu) (hsecond v b hv) hsame (hfollow rest hrest)

/-- Languages that start differently have no place in common. -/
theorem of_starts {starts starts' : Lexeme → Bool} (hfirst : first.StartsWith starts)
    (hsecond : second.StartsWith starts')
    (hdifferent : ∀ lexeme, starts lexeme = true → starts' lexeme = false) :
    Coherent first second follow := by
  intro u v rest other a b hu hv hsame _
  obtain ⟨lexeme, u', rfl, hstarts⟩ := hfirst u a hu
  obtain ⟨lexeme', v', rfl, hstarts'⟩ := hsecond v b hv
  injection hsame with hlexeme _
  subst hlexeme
  exact absurd hstarts' (by simp [hdifferent lexeme hstarts])

theorem or_left {third : Language α} (hfirst : Coherent first third follow)
    (hsecond : Coherent second third follow) : Coherent (first.or second) third follow := by
  rintro u v rest other a b (hu | hu) hv hsame hrest
  · exact hfirst u v rest other a b hu hv hsame hrest
  · exact hsecond u v rest other a b hu hv hsame hrest

theorem or_right {third : Language α} (hfirst : Coherent third first follow)
    (hsecond : Coherent third second follow) : Coherent third (first.or second) follow := by
  rintro u v rest other a b hu (hv | hv) hsame hrest
  · exact hfirst u v rest other a b hu hv hsame hrest
  · exact hsecond u v rest other a b hu hv hsame hrest

end Coherent

/-! ## What may follow -/

namespace Lexeme

/-- Whether a lexeme behind a name makes a call of it. -/
def continuesOperand : Lexeme → Bool
  | .reserved .leftParen => true
  | _ => false

/-- Whether an arithmetic expression may go on with a lexeme. -/
def continuesArithmetic : Lexeme → Bool
  | .reserved .plus => true
  | .reserved .minus => true
  | lexeme => lexeme.continuesOperand

/-- Whether an operand of a logical operator may go on with a lexeme. -/
def continuesComparison : Lexeme → Bool
  | .reserved .lessThan => true
  | .reserved .lessEquals => true
  | .reserved .greaterThan => true
  | .reserved .greaterEquals => true
  | .reserved .doubleEquals => true
  | .reserved .notEquals => true
  | lexeme => lexeme.continuesArithmetic

/-- Whether a logical expression may go on with a lexeme. -/
def continuesLogic : Lexeme → Bool
  | .reserved .logicalAnd => true
  | .reserved .logicalOr => true
  | lexeme => lexeme.continuesComparison

/-- Whether an arithmetic expression may start with a lexeme. -/
def startsArithmetic : Lexeme → Bool
  | .identifier _ => true
  | .integer _ => true
  | .reserved .minus => true
  | .reserved .leftParen => true
  | _ => false

/-- Whether an expression may start with a lexeme. -/
def startsExpression : Lexeme → Bool
  | .reserved .trueWord => true
  | .reserved .falseWord => true
  | .reserved .logicalNot => true
  | lexeme => lexeme.startsArithmetic

theorem startsExpression_of_arithmetic {lexeme : Lexeme} (h : lexeme.startsArithmetic = true) :
    lexeme.startsExpression = true := by
  unfold startsExpression
  split
  · rfl
  · rfl
  · rfl
  · exact h

def isName : Lexeme → Bool
  | .identifier _ => true
  | _ => false

/-- Whether a statement may start with a lexeme. -/
def startsStatement : Lexeme → Bool
  | .identifier _ => true
  | .reserved .ifWord => true
  | .reserved .whileWord => true
  | _ => false

end Lexeme

/-- Nothing is left, or the next lexeme has no way to continue what is before it. -/
def StopsBefore (continues : Lexeme → Bool) (rest : List Lexeme) : Prop :=
  ∀ lexeme, rest.head? = some lexeme → continues lexeme = false

/-- The next lexeme is a reserved word. -/
def NextIs (word : Reserved) (rest : List Lexeme) : Prop :=
  ∃ other, rest = .reserved word :: other

/-- What may follow a block: no continued statement, and no further statement. -/
def StopsBlock (rest : List Lexeme) : Prop :=
  StopsBefore Lexeme.continuesLogic rest ∧
    ∀ lexeme, rest.head? = some (.reserved .semicolon) → rest.tail.head? = some lexeme →
      lexeme.startsStatement = false

/-! ## How phrases start -/

theorem Language.StartsWith.mono {α : Type} {language : Language α} {starts starts' : Lexeme → Bool}
    (h : language.StartsWith starts)
    (hstarts : ∀ lexeme, starts lexeme = true → starts' lexeme = true) :
    language.StartsWith starts' := by
  intro u value hu
  obtain ⟨lexeme, v, rfl, hlexeme⟩ := h u value hu
  exact ⟨lexeme, v, rfl, hstarts lexeme hlexeme⟩

namespace Phrase

theorem startsWith_call : Language.StartsWith Call Lexeme.startsArithmetic := by
  rintro _ _ ⟨name, _⟩
  exact ⟨_, _, rfl, rfl⟩

theorem startsWith_arithmeticTerm : Language.StartsWith ArithmeticTerm Lexeme.startsArithmetic := by
  intro u tree hterm
  cases hterm with
  | number h => cases h <;> exact ⟨_, _, rfl, rfl⟩
  | var name => exact ⟨_, _, rfl, rfl⟩
  | group h => exact ⟨_, _, rfl, rfl⟩

theorem startsWith_arithmeticOperand :
    Language.StartsWith ArithmeticOperand Lexeme.startsArithmetic := by
  intro u tree hoperand
  cases hoperand with
  | call h => exact startsWith_call u tree h
  | term h => exact startsWith_arithmeticTerm u tree h

theorem startsWith_arithmetic : Language.StartsWith Arithmetic Lexeme.startsArithmetic := by
  rintro u tree ⟨hchain⟩
  exact startsWith_arithmeticOperand.chain _ u tree hchain

theorem startsWith_comparison : Language.StartsWith Comparison Lexeme.startsArithmetic := by
  rintro _ _ ⟨hleft, _, _⟩
  obtain ⟨lexeme, v, rfl, hlexeme⟩ := startsWith_arithmetic _ _ hleft
  exact ⟨lexeme, _, rfl, hlexeme⟩

theorem startsWith_logicTerm : Language.StartsWith LogicTerm Lexeme.startsExpression := by
  intro u tree hterm
  cases hterm with
  | boolean h => cases h <;> exact ⟨_, _, rfl, rfl⟩
  | comparison h =>
    exact startsWith_comparison.mono (fun _ => Lexeme.startsExpression_of_arithmetic) u tree h
  | not h => exact ⟨_, _, rfl, rfl⟩
  | var name => exact ⟨_, _, rfl, rfl⟩
  | group h => exact ⟨_, _, rfl, rfl⟩

theorem startsWith_logic : Language.StartsWith Logic Lexeme.startsExpression := by
  rintro u tree ⟨hchain⟩
  refine Language.StartsWith.chain ?_ _ u tree hchain
  intro u tree hoperand
  cases hoperand with
  | call h => exact startsWith_call.mono (fun _ => Lexeme.startsExpression_of_arithmetic) u tree h
  | term h => exact startsWith_logicTerm u tree h

theorem startsWith_expression : Language.StartsWith Expression Lexeme.startsExpression := by
  intro u tree hexpression
  cases hexpression with
  | logic h => exact startsWith_logic u tree h
  | arithmetic h =>
    exact startsWith_arithmetic.mono (fun _ => Lexeme.startsExpression_of_arithmetic) u tree h

theorem startsWith_statement : Language.StartsWith Statement Lexeme.startsStatement := by
  intro u tree hstatement
  cases hstatement <;> exact ⟨_, _, rfl, rfl⟩

theorem startsWith_block : Language.StartsWith Block Lexeme.startsStatement := by
  rintro u tree ⟨hchain⟩
  exact startsWith_statement.chain _ u tree hchain

end Phrase

@[simp]
theorem stopsBefore_nil (continues : Lexeme → Bool) : StopsBefore continues [] := by
  simp [StopsBefore]

@[simp]
theorem stopsBefore_cons {continues : Lexeme → Bool} {lexeme : Lexeme} {rest : List Lexeme} :
    StopsBefore continues (lexeme :: rest) ↔ continues lexeme = false := by
  simp [StopsBefore]

end WhileLang

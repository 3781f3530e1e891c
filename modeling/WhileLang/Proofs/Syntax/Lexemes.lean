import WhileLang.Proofs.Syntax.Names
import WhileLang.Proofs.Token.Scanning
import WhileLang.Syntax.Printer

/-!
# The lexemes of printed trees

What a tree is printed as, lexeme by lexeme, and that the printed text is scanned as these lexemes:
no blank is missing between two of them.

Main definitions:

- Functions {lit}`Expr.lexemes`, {lit}`Stmt.lexemes`, {lit}`FunctionDef.lexemes` and
  {lit}`Program.lexemes`.
- Predicate {lit}`Spells`: a text is scanned as some lexemes wherever it stands.

Main results:

- Theorems {lit}`Expr.spells`, {lit}`Stmt.spells` and {lit}`Program.scans_text`.
-/

namespace WhileLang

/-! ## Lexemes of trees -/

def MathOp.word : MathOp → Reserved
  | .add => .plus
  | .sub => .minus

def CompareOp.word : CompareOp → Reserved
  | .lt => .lessThan
  | .le => .lessEquals
  | .gt => .greaterThan
  | .ge => .greaterEquals
  | .eq => .doubleEquals
  | .ne => .notEquals

def LogicOp.word : LogicOp → Reserved
  | .and => .logicalAnd
  | .or => .logicalOr

/-- The lexemes of an integer: its sign is a lexeme of its own. -/
def integerLexemes (number : Int64) : List Lexeme :=
  match number.toInt with
  | .ofNat magnitude => [.integer (toString magnitude)]
  | .negSucc magnitude => [.reserved .minus, .integer (toString (magnitude + 1))]

def Value.lexemes : Value → List Lexeme
  | .int number => integerLexemes number
  | .bool true => [.reserved .trueWord]
  | .bool false => [.reserved .falseWord]

/-- Lexemes in parentheses. -/
def grouped (lexemes : List Lexeme) : List Lexeme :=
  .reserved .leftParen :: (lexemes ++ [.reserved .rightParen])

/-- Lists of lexemes with a word between any two. -/
def joined (word : Reserved) : List (List Lexeme) → List Lexeme
  | [] => []
  | [lexemes] => lexemes
  | lexemes :: others => lexemes ++ .reserved word :: joined word others

/-- The lexemes that an expression is printed as. -/
def Expr.lexemes : Expr → List Lexeme
  | .literal value => value.lexemes
  | .var name => [.identifier name]
  | .math op left right =>
    left.lexemes ++ .reserved op.word ::
      (if right.isMath then grouped right.lexemes else right.lexemes)
  | .compare op left right => left.lexemes ++ .reserved op.word :: right.lexemes
  | .logic op left right =>
    left.lexemes ++ .reserved op.word ::
      (if right.isLogic then grouped right.lexemes else right.lexemes)
  | .not operand =>
    .reserved .logicalNot ::
      (if operand.standsUnderNot then operand.lexemes else grouped operand.lexemes)
  | .call name args => .identifier name :: grouped (joined .comma (lexemesOfArgs args))
where
  /-- The lexemes of each argument. -/
  lexemesOfArgs : List Expr → List (List Lexeme)
    | [] => []
    | arg :: args => arg.lexemes :: lexemesOfArgs args

theorem Expr.lexemesOfArgs_eq_map (args : List Expr) :
    Expr.lexemes.lexemesOfArgs args = args.map Expr.lexemes := by
  induction args with
  | nil => rfl
  | cons arg args ih => rw [lexemes.lexemesOfArgs, ih, List.map_cons]

/-- The lexemes that a block is printed as, however its chain is nested. -/
def Stmt.lexemes : Stmt → List Lexeme
  | .assign name value => .identifier name :: .reserved .assign :: value.lexemes
  | .seq first second => first.lexemes ++ .reserved .semicolon :: second.lexemes
  | .ifThen condition body =>
    .reserved .ifWord :: (condition.lexemes ++ (body.lexemes ++ [.reserved .endWord]))
  | .ifElse condition body alternative =>
    .reserved .ifWord :: (condition.lexemes ++ (body.lexemes ++ .reserved .elseWord ::
      (alternative.lexemes ++ [.reserved .endWord])))
  | .loop condition body =>
    .reserved .whileWord :: (condition.lexemes ++ (body.lexemes ++ [.reserved .endWord]))

/-- The lexemes that the statements of a function are printed as, a semicolon behind them. -/
def bodyLexemes : Option Stmt → List Lexeme
  | none => []
  | some body => body.lexemes ++ [.reserved .semicolon]

def FunctionDef.lexemes (function : FunctionDef) : List Lexeme :=
  .reserved .funcWord :: .identifier function.name :: .reserved .leftParen ::
    (joined .comma (function.params.map fun name => [.identifier name]) ++ .reserved .rightParen ::
      .reserved .leftBrace :: (bodyLexemes function.body ++ .reserved .returnWord ::
        (function.result.lexemes ++ [.reserved .rightBrace])))

def Program.lexemes (program : Program) : List Lexeme :=
  joined .semicolon (program.functions.map FunctionDef.lexemes)

/-! ## Texts in their context -/

theorem goesOn_of_isBlank {c : Char} (h : isBlank c = true) (word : Reserved) :
    word.goesOn c = false := by
  have hword : isIdentifierRest c = false := by
    by_contra hword
    rw [not_isBlank_of_word (by simpa using hword)] at h
    cases h
  have hequals : decide (c = '=') = false := by
    rw [decide_eq_false_iff_not]
    rintro rfl
    revert h
    decide
  cases word <;> first | exact hword | exact hequals | rfl

/-- No word goes on where a text starts with a character that belongs to none. -/
theorem endsWord_text {text : String} (h : text.toList.head?.any (!isIdentifierRest ·) = true)
    (rest : List Char) : EndsWord (text.toList ++ rest) := by
  cases htext : text.toList with
  | nil => simp [htext] at h
  | cons c chars =>
    rw [List.cons_append, endsWord_cons]
    simpa [htext] using h

namespace Scans

variable {rest : List Char} {others : List Lexeme}

theorem blanks (blanks : List Char) (h : blanks.all isBlank = true) (hrest : Scans rest others) :
    Scans (blanks ++ rest) others := by
  induction blanks with
  | nil => exact hrest
  | cons c blanks ih =>
    rw [List.all_cons, Bool.and_eq_true] at h
    exact .blank h.1 (ih h.2)

/-- A word that is written with blanks around it; behind most words there has to be one. -/
theorem padded {text : String} (word : Reserved) (before after : List Char)
    (htext : text.toList = before ++ (word.text.toList ++ after))
    (hblanks : before.all isBlank = true ∧ after.all isBlank = true)
    (hafter : after ≠ [] ∨ ∀ c, word.goesOn c = false) (hrest : Scans rest others) :
    Scans (text.toList ++ rest) (.reserved word :: others) := by
  rw [htext, List.append_assoc, List.append_assoc]
  refine .blanks before hblanks.1 (.word word (.blanks after hblanks.2 hrest) fun c hc => ?_)
  cases after with
  | nil => exact (hafter.resolve_left fun hne => hne rfl) c
  | cons blank after =>
    cases hc
    refine goesOn_of_isBlank ?_ word
    have hblanks := hblanks.2
    rw [List.all_cons, Bool.and_eq_true] at hblanks
    exact hblanks.1

/-- An operator between two operands. -/
theorem operator {symbol : String} {word : Reserved} (hsymbol : word.text = symbol)
    (hrest : Scans rest others) :
    Scans (" ".toList ++ (symbol.toList ++ (" ".toList ++ rest))) (.reserved word :: others) := by
  have hspace : " ".toList = [' '] := by rfl
  rw [← hsymbol, hspace]
  exact .blank rfl (.word word (.blank rfl hrest) fun c hc => by
    cases hc
    exact goesOn_of_isBlank rfl word)

end Scans

/-- A text is scanned as some lexemes wherever no word goes on behind it. -/
def Spells (text : String) (lexemes : List Lexeme) : Prop :=
  ∀ rest others, EndsWord rest → Scans rest others →
    Scans (text.toList ++ rest) (lexemes ++ others)

theorem Spells.scans {text : String} {lexemes : List Lexeme} (h : Spells text lexemes) :
    Scans text.toList lexemes := by
  have hall := h [] [] endsWord_nil .done
  rwa [List.append_nil, List.append_nil] at hall

namespace Spells

variable {text text' : String} {lexemes lexemes' : List Lexeme}

theorem inParens (h : Spells text lexemes) {rest : List Char} {others : List Lexeme}
    (hrest : Scans rest others) :
    Scans ((inParens text).toList ++ rest) (grouped lexemes ++ others) := by
  have hclose : Scans (")".toList ++ rest) (.reserved .rightParen :: others) :=
    .padded .rightParen [] [] rfl ⟨rfl, rfl⟩ (.inr fun _ => rfl) hrest
  have hinner := h (")".toList ++ rest) _ (endsWord_text rfl rest) hclose
  have hopen : Scans ("(".toList ++ _) (.reserved .leftParen :: _) :=
    .padded .leftParen [] [] rfl ⟨rfl, rfl⟩ (.inr fun _ => rfl) hinner
  unfold WhileLang.inParens grouped
  simp only [String.toList_append, List.append_assoc, List.cons_append, List.nil_append]
  exact hopen

/-- Two operands with an operator between them. -/
theorem operator (h : Spells text lexemes) (h' : Spells text' lexemes') {symbol : String}
    {word : Reserved} (hsymbol : word.text = symbol) :
    Spells (text ++ " " ++ symbol ++ " " ++ text') (lexemes ++ .reserved word :: lexemes') := by
  intro rest others hends hrest
  simp only [String.toList_append, List.append_assoc, List.cons_append]
  exact h _ _ (endsWord_text rfl _) (.operator hsymbol (h' rest others hends hrest))

theorem group (h : Spells text lexemes) : Spells (WhileLang.inParens text) (grouped lexemes) :=
  fun _ _ _ hrest => h.inParens hrest

/-- Items with a word between any two, which is written with a blank behind it. -/
theorem intercalate {α : Type} {text : α → String} {lexemes : α → List Lexeme} {separator : String}
    (word : Reserved) (after : List Char)
    (hseparator : separator.toList = word.text.toList ++ after)
    (hblanks : after.all isBlank = true) (hafter : after ≠ [])
    (hword : separator.toList.head?.any (!isIdentifierRest ·) = true) (items : List α)
    (hitems : ∀ item ∈ items, Spells (text item) (lexemes item)) :
    Spells (separator.intercalate (items.map text)) (joined word (items.map lexemes)) := by
  induction items with
  | nil =>
    intro rest others _ hrest
    rw [List.map_nil, String.intercalate_nil, String.toList_empty]
    exact hrest
  | cons item items ih =>
    rw [List.forall_mem_cons] at hitems
    intro rest others hends hrest
    cases items with
    | nil =>
      rw [List.map_singleton, String.intercalate_singleton]
      exact hitems.1 rest others hends hrest
    | cons next items =>
      have hothers := ih hitems.2 rest others hends hrest
      have hseparated : Scans (separator.toList ++ _) (.reserved word :: _) :=
        .padded word [] after hseparator ⟨rfl, hblanks⟩ (.inl hafter) hothers
      have hall := hitems.1 _ _ (endsWord_text hword _) hseparated
      rw [List.map_cons, List.map_cons, String.intercalate_cons_cons]
      simp only [String.toList_append, List.append_assoc]
      exact (List.append_assoc _ (_ :: _) others).symm ▸ hall

end Spells

/-! ## Expressions -/

/-- Digits spell the number that they are printed for. -/
theorem spells_digits (magnitude : Nat) :
    Spells (toString magnitude) [.integer (toString magnitude)] := by
  intro rest others hends hrest
  have htext : (toString magnitude).toList = Nat.toDigits 10 magnitude := Nat.toList_repr
  refine .digits ?_ ?_ hrest hends
  · rw [htext, List.all_eq_true]
    exact fun c hc => Nat.isDigit_of_mem_toDigits (by decide) (by decide) hc
  · rw [htext]
    exact Nat.toDigits_ne_nil

/-- The sign and the digits of an integer are printed without a blank between them. -/
theorem spells_integer (number : Int64) :
    Spells (toString number.toInt) (integerLexemes number) := by
  unfold integerLexemes
  cases number.toInt with
  | ofNat magnitude => exact spells_digits magnitude
  | negSucc magnitude =>
    intro rest others hends hrest
    have hdigits := spells_digits (magnitude + 1) rest others hends hrest
    have hsign : Scans ("-".toList ++ _) (.reserved .minus :: _) :=
      .padded .minus [] [] rfl ⟨rfl, rfl⟩ (.inr fun _ => rfl) hdigits
    have htext : toString (Int.negSucc magnitude) = "-" ++ toString (magnitude + 1) := rfl
    rw [htext, String.toList_append, List.append_assoc]
    exact hsign

theorem Value.spells (value : Value) : Spells value.text value.lexemes := by
  cases value with
  | int number => exact spells_integer number
  | bool truth =>
    intro rest others hends hrest
    cases truth with
    | true => exact .word .trueWord hrest hends
    | false => exact .word .falseWord hrest hends

theorem Value.text_toList (value : Value) :
    ∃ c chars, value.text.toList = c :: chars ∧ c ≠ '=' := by
  cases value with
  | int number =>
    unfold Value.text
    dsimp only
    cases number.toInt with
    | ofNat magnitude =>
      have htext : (toString (Int.ofNat magnitude)).toList = Nat.toDigits 10 magnitude :=
        Nat.toList_repr
      obtain ⟨c, chars, hdigits⟩ :=
        List.exists_cons_of_ne_nil (Nat.toDigits_ne_nil : Nat.toDigits 10 magnitude ≠ [])
      have hdigit : c.isDigit = true :=
        Nat.isDigit_of_mem_toDigits (by decide) (by decide) (hdigits ▸ List.mem_cons_self)
      refine ⟨c, chars, htext.trans hdigits, ?_⟩
      rintro rfl
      exact absurd hdigit (by decide)
    | negSucc magnitude =>
      have htext : toString (Int.negSucc magnitude) = "-" ++ toString (magnitude + 1) := rfl
      refine ⟨'-', (toString (magnitude + 1)).toList, ?_, by decide⟩
      rw [htext, String.toList_append]
      rfl
  | bool truth =>
    cases truth with
    | true => exact ⟨'t', ['r', 'u', 'e'], rfl, by decide⟩
    | false => exact ⟨'f', ['a', 'l', 's', 'e'], rfl, by decide⟩

theorem identifier_toList {name : String} (h : isIdentifier name = true) :
    ∃ c chars, name.toList = c :: chars ∧ c ≠ '=' := by
  obtain ⟨c, chars, hname, hstart, -⟩ := isIdentifier_chars h
  refine ⟨c, chars, hname, ?_⟩
  rintro rfl
  exact absurd hstart (by decide)

/-- The text of an expression starts with no equals sign. -/
theorem Expr.text_toList {tree : Expr} (h : IsNamed tree.names) :
    ∃ c chars, tree.text.toList = c :: chars ∧ c ≠ '=' := by
  have happend : ∀ {text : String} (behind : String),
      (∃ c chars, text.toList = c :: chars ∧ c ≠ '=') →
        ∃ c chars, (text ++ behind).toList = c :: chars ∧ c ≠ '=' := by
    rintro text behind ⟨c, chars, htext, hc⟩
    exact ⟨c, chars ++ behind.toList, by rw [String.toList_append, htext, List.cons_append], hc⟩
  induction tree with
  | literal value => exact value.text_toList
  | var name => exact identifier_toList (h name List.mem_cons_self)
  | math op left right ihl _ | logic op left right ihl _ =>
    rw [names, isNamed_append] at h
    exact happend _ (happend _ (happend _ (happend _ (ihl h.1))))
  | compare op left right ihl _ =>
    rw [names, isNamed_append] at h
    exact happend _ (happend _ (happend _ (happend _ (ihl h.1))))
  | not operand _ => exact happend _ ⟨'!', [], rfl, by decide⟩
  | call name args _ => exact happend _ (identifier_toList (h name List.mem_cons_self))

theorem Expr.argsText_eq_intercalate (args : List Expr) :
    Expr.text.argsText args = ", ".intercalate (args.map Expr.text) := by
  induction args with
  | nil => rfl
  | cons arg args ih =>
    cases args with
    | nil => rw [text.argsText, List.map_singleton, String.intercalate_singleton]
    | cons next args =>
      rw [text.argsText]
      · rw [ih, List.map_cons, List.map_cons, List.map_cons, String.intercalate_cons_cons]
      · exact List.cons_ne_nil _ _

/-- A sign for the negation is read as such, since no equals sign comes behind it. -/
theorem Spells.negation {text : String} {lexemes : List Lexeme} (h : Spells text lexemes)
    (htext : ∃ c chars, text.toList = c :: chars ∧ c ≠ '=') :
    Spells ("!" ++ text) (.reserved .logicalNot :: lexemes) := by
  intro rest others hends hrest
  obtain ⟨c, chars, htext, hc⟩ := htext
  rw [String.toList_append, List.append_assoc]
  refine .word .logicalNot (h rest others hends hrest) fun next hnext => ?_
  rw [htext] at hnext
  cases hnext
  exact decide_eq_false hc

theorem Expr.spells {tree : Expr} (h : IsNamed tree.names) : Spells tree.text tree.lexemes := by
  induction tree with
  | literal value => exact value.spells
  | var name =>
    intro rest others hends hrest
    exact .name (h name List.mem_cons_self) hrest hends
  | math op left right ihl ihr =>
    rw [names, isNamed_append] at h
    have hop : op.word.text = op.symbol := by cases op <;> rfl
    unfold text lexemes
    split
    · exact (ihl h.1).operator (ihr h.2).group hop
    · exact (ihl h.1).operator (ihr h.2) hop
  | compare op left right ihl ihr =>
    rw [names, isNamed_append] at h
    exact (ihl h.1).operator (ihr h.2) (by cases op <;> rfl)
  | logic op left right ihl ihr =>
    rw [names, isNamed_append] at h
    have hop : op.word.text = op.symbol := by cases op <;> rfl
    unfold text lexemes
    split
    · exact (ihl h.1).operator (ihr h.2).group hop
    · exact (ihl h.1).operator (ihr h.2) hop
  | not operand ih =>
    unfold text lexemes
    split
    · exact (ih h).negation (Expr.text_toList h)
    · refine (ih h).group.negation ⟨'(', (operand.text ++ ")").toList, ?_, by decide⟩
      rw [inParens, String.append_assoc, String.toList_append]
      rfl
  | call name args ih =>
    rw [names, isNamed_cons] at h
    have hargs : Spells (text.argsText args) (joined .comma (lexemes.lexemesOfArgs args)) := by
      rw [argsText_eq_intercalate, lexemesOfArgs_eq_map]
      refine .intercalate .comma [' '] rfl rfl (List.cons_ne_nil _ _) rfl args
        fun arg hmem => ih arg hmem fun other hother => h.2 other ?_
      exact mem_namesOfArgs.2 ⟨arg, hmem, hother⟩
    intro rest others _ hrest
    have hgroup := hargs.inParens hrest
    unfold text lexemes
    rw [String.toList_append, List.append_assoc]
    refine .name h.1 hgroup ?_
    rw [inParens, String.append_assoc, String.toList_append, List.append_assoc]
    exact endsWord_text rfl _

/-! ## Statements -/

theorem all_isBlank_indentation (level : Nat) : (indentation level).toList.all isBlank = true := by
  rw [indentation, String.toList_ofList, List.all_eq_true]
  intro c hc
  rw [List.eq_of_mem_replicate hc]
  rfl

/-- The last line of a statement that contains others. -/
theorem Scans.ending {rest : List Char} {others : List Lexeme} (level : Nat)
    (hends : EndsWord rest) (hrest : Scans rest others) :
    Scans ("\n".toList ++ ((indentation level).toList ++ ("end".toList ++ rest)))
      (.reserved .endWord :: others) :=
  .blanks _ rfl (.blanks _ (all_isBlank_indentation level)
    (.word .endWord hrest hends))

/-- A condition behind its word, with a block in the next lines. -/
theorem Scans.conditioned {text block : String} {lexemes lexemes' : List Lexeme}
    {rest : List Char} {others : List Lexeme} {keyword : String} (word : Reserved)
    (hword : keyword.toList = word.text.toList ++ [' ']) (hcondition : Spells text lexemes)
    (hblock : Spells block lexemes') (hends : EndsWord rest) (hrest : Scans rest others)
    (level : Nat) :
    Scans ((indentation level).toList ++ (keyword.toList ++ (text.toList ++ ("\n".toList ++
        (block.toList ++ rest)))))
      (.reserved word :: (lexemes ++ (lexemes' ++ others))) := by
  have hbody := hblock rest others hends hrest
  have hline : Scans ("\n".toList ++ _) _ := .blanks "\n".toList rfl hbody
  exact .blanks _ (all_isBlank_indentation level) (.padded word [] [' '] hword ⟨rfl, rfl⟩
    (.inl (List.cons_ne_nil _ _)) (hcondition _ _ (endsWord_text rfl _) hline))

theorem Stmt.spells {stmt : Stmt} (h : IsNamed stmt.names) (level : Nat) :
    Spells (stmt.textAt level) stmt.lexemes := by
  induction stmt generalizing level with
  | assign name value =>
    rw [names, isNamed_cons] at h
    intro rest others hends hrest
    unfold textAt lexemes
    simp only [String.toList_append, List.append_assoc, List.cons_append]
    exact .blanks _ (all_isBlank_indentation level) (.name h.1 (.padded .assign [' '] [' ']
      rfl ⟨rfl, rfl⟩ (.inl (List.cons_ne_nil _ _)) (Expr.spells h.2 rest others hends hrest))
      (endsWord_text rfl _))
  | seq first second ihf ihs =>
    rw [names, isNamed_append] at h
    intro rest others hends hrest
    unfold textAt lexemes
    simp only [String.toList_append, List.append_assoc, List.cons_append]
    exact ihf h.1 level _ _ (endsWord_text rfl _) (.padded .semicolon [] ['\n']
      rfl ⟨rfl, rfl⟩ (.inl (List.cons_ne_nil _ _)) (ihs h.2 level rest others hends hrest))
  | ifThen condition body ih | loop condition body ih =>
    rw [names, isNamed_append] at h
    intro rest others hends hrest
    unfold textAt lexemes
    simp only [String.toList_append, List.append_assoc, List.cons_append, List.nil_append]
    exact .conditioned _ rfl (Expr.spells h.1) (ih h.2 (level + 1))
      (endsWord_text rfl _) (.ending level hends hrest) level
  | ifElse condition body alternative ihb iha =>
    rw [names, isNamed_append, isNamed_append] at h
    intro rest others hends hrest
    unfold textAt lexemes
    simp only [String.toList_append, List.append_assoc, List.cons_append, List.nil_append]
    have halternative := iha h.2.2 (level + 1) _ _ (endsWord_text rfl _)
      (Scans.ending level hends hrest)
    have helse : Scans ("\n".toList ++ ((indentation level).toList ++ ("else\n".toList ++ _))) _ :=
      .blanks _ rfl (.blanks _ (all_isBlank_indentation level)
        (.padded .elseWord [] ['\n'] rfl ⟨rfl, rfl⟩ (.inl (List.cons_ne_nil _ _)) halternative))
    exact .conditioned .ifWord rfl (Expr.spells h.1) (ihb h.2.1 (level + 1))
      (endsWord_text rfl _) helse level

/-! ## Functions and programs -/

theorem spells_params {params : List String} (h : IsNamed params) :
    Spells (", ".intercalate params)
      (joined .comma (params.map fun name => [.identifier name])) := by
  have hitems : ∀ name ∈ params, Spells name [.identifier name] := fun name hmem rest others hends
    hrest => .name (h name hmem) hrest hends
  have hall : Spells (", ".intercalate (params.map id)) _ :=
    .intercalate .comma [' '] rfl rfl (List.cons_ne_nil _ _) rfl params hitems
  rwa [List.map_id] at hall

/-- The statements of a function, if there are any, before the line of the result. -/
theorem scans_body {body : Option Stmt} (h : IsNamed (body.elim [] Stmt.names)) {rest : List Char}
    {others : List Lexeme} (hrest : Scans rest others) :
    Scans ((body.elim "" fun body => body.textAt 1 ++ ";\n").toList ++ rest)
      (bodyLexemes body ++ others) := by
  cases body with
  | none => exact hrest
  | some body =>
    have hsemicolon : Scans (";\n".toList ++ rest) (.reserved .semicolon :: others) :=
      .padded .semicolon [] ['\n'] rfl ⟨rfl, rfl⟩ (.inl (List.cons_ne_nil _ _)) hrest
    have hbody := Stmt.spells h 1 _ _ (endsWord_text rfl rest) hsemicolon
    rw [bodyLexemes, Option.elim_some, String.toList_append, List.append_assoc, List.append_assoc]
    exact hbody

theorem FunctionDef.spells {function : FunctionDef} (h : IsNamed function.names) :
    Spells function.text function.lexemes := by
  rw [names, isNamed_cons, isNamed_append, isNamed_append] at h
  obtain ⟨hname, hparams, hbody, hresult⟩ := h
  intro rest others _ hrest
  have hclose : Scans ("\n\x7d".toList ++ rest) (.reserved .rightBrace :: others) :=
    .padded .rightBrace ['\n'] [] rfl ⟨rfl, rfl⟩ (.inr fun _ => rfl) hrest
  have hreturn : Scans ((indentation 1).toList ++ ("return ".toList ++ _))
      (.reserved .returnWord :: _) :=
    .blanks _ (all_isBlank_indentation 1) (.padded .returnWord [] [' '] rfl ⟨rfl, rfl⟩
      (.inl (List.cons_ne_nil _ _)) (Expr.spells hresult _ _ (endsWord_text rfl rest) hclose))
  have hopen : Scans (" \x7b\n".toList ++ _) (.reserved .leftBrace :: _) :=
    .padded .leftBrace [' '] ['\n'] rfl ⟨rfl, rfl⟩ (.inl (List.cons_ne_nil _ _))
      (scans_body hbody hreturn)
  have hgroup := (spells_params hparams).inParens hopen
  have hheader : Scans ("func ".toList ++ (function.name.toList ++ _))
      (.reserved .funcWord :: .identifier function.name :: _) :=
    .padded .funcWord [] [' '] rfl ⟨rfl, rfl⟩ (.inl (List.cons_ne_nil _ _)) (.name hname hgroup ?_)
  · unfold text lexemes
    unfold grouped at hheader
    simp only [String.toList_append, List.append_assoc, List.cons_append, List.nil_append]
      at hheader ⊢
    exact hheader
  · rw [inParens, String.append_assoc, String.toList_append, List.append_assoc]
    exact endsWord_text rfl _

/-- The text of a program is scanned as its lexemes. -/
theorem Program.scans_text {program : Program} (h : IsNamed program.names) :
    Scans program.text.toList program.lexemes := by
  have hfunctions : Spells (";\n\n".intercalate (program.functions.map FunctionDef.text))
      program.lexemes :=
    .intercalate .semicolon ['\n', '\n'] rfl rfl (List.cons_ne_nil _ _) rfl
      program.functions fun function hmem => FunctionDef.spells fun name hname =>
        h name (List.mem_flatMap.2 ⟨function, hmem, hname⟩)
  have hline : Scans ("\n".toList ++ []) [] := .blanks _ rfl .done
  have hall := hfunctions _ [] (endsWord_text rfl []) hline
  rw [text, String.toList_append]
  rwa [List.append_nil, List.append_nil] at hall

end WhileLang

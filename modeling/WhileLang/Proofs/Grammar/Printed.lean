import WhileLang.Proofs.Grammar.Phrase
import WhileLang.Proofs.Syntax.Canonical
import WhileLang.Proofs.Syntax.Lexemes

/-!
# Printed trees are phrases

The lexemes of a canonical tree are a phrase of its category, which spells the tree itself with its
chains nested to the left.  The parentheses that are printed are all that the grammar needs.

Main results:

- Theorems {lit}`Expr.phrase_lexemes`, {lit}`Stmt.phrase_lexemes` and
  {lit}`Program.phrase_lexemes`.
-/

namespace WhileLang

/-! ## Chains and lists -/

section

variable {α : Type} {items : List Lexeme → α → Prop}
variable {separators : List Lexeme → (α → α → α) → Prop}

/-- An item by itself is a chain. -/
theorem Chain.single {u : List Lexeme} {value : α} (h : items u value) :
    Chain items separators u value := by
  rw [← List.append_nil u]
  exact .intro h (.stop value)

theorem ChainFrom.append {folded middle result : α} {u v : List Lexeme}
    (hfirst : ChainFrom items separators folded u middle)
    (hrest : ChainFrom items separators middle v result) :
    ChainFrom items separators folded (u ++ v) result := by
  induction hfirst with
  | stop => exact hrest
  | round hseparator hitem _ ih =>
    rw [List.append_assoc, List.append_assoc]
    exact .round hseparator hitem (ih hrest)

theorem Chain.append {u v : List Lexeme} {value result : α}
    (hchain : Chain items separators u value)
    (hrest : ChainFrom items separators value v result) :
    Chain items separators (u ++ v) result := by
  obtain ⟨hfirst, hmiddle⟩ := hchain
  rw [List.append_assoc]
  exact .intro hfirst (hmiddle.append hrest)

/-- A chain goes on with a separator and an item. -/
theorem Chain.snoc {u v w : List Lexeme} {value next : α} {combine : α → α → α}
    (hchain : Chain items separators u value) (hseparator : separators v combine)
    (hitem : items w next) : Chain items separators (u ++ (v ++ w)) (combine value next) := by
  rw [← List.append_nil w]
  exact hchain.append (.round hseparator hitem (.stop _))

/-- Lexemes of items that are joined by a word are a list of the items. -/
theorem separatedBy_joined {β : Type} {lexemes : β → List Lexeme} {value : β → α}
    (word : Reserved) {trees : List β} (hne : trees ≠ [])
    (htrees : ∀ tree ∈ trees, items (lexemes tree) (value tree)) :
    SeparatedBy word items (joined word (trees.map lexemes)) (trees.map value) := by
  induction trees with
  | nil => exact absurd rfl hne
  | cons tree trees ih =>
    rw [List.forall_mem_cons] at htrees
    cases trees with
    | nil => exact .one htrees.1
    | cons next trees => exact .cons htrees.1 (ih nofun htrees.2)

theorem commaList_joined {β : Type} {lexemes : β → List Lexeme} {value : β → α} {trees : List β}
    (htrees : ∀ tree ∈ trees, items (lexemes tree) (value tree)) :
    CommaList items (joined .comma (trees.map lexemes)) (trees.map value) := by
  cases trees with
  | nil => exact .none
  | cons tree trees => exact .some (separatedBy_joined .comma nofun htrees)

end

/-! ## Expressions -/

/-- A printed integer is read with its sign, down to the least integer. -/
theorem phrase_integerLexemes (number : Int64) :
    Phrase.Number (integerLexemes number) (.int number) := by
  have hdigits : ∀ magnitude : Nat, (toString magnitude).toList.all Char.isDigit = true
      ∧ (toString magnitude).toList ≠ []
      ∧ Nat.ofDigitChars 10 (toString magnitude).toList 0 = magnitude := by
    intro magnitude
    have htext : (toString magnitude).toList = Nat.toDigits 10 magnitude := Nat.toList_repr
    rw [htext, List.all_eq_true]
    exact ⟨fun c hc => Nat.isDigit_of_mem_toDigits (by decide) (by decide) hc,
      Nat.toDigits_ne_nil, Nat.ofDigitChars_ten_toDigits⟩
  unfold integerLexemes
  cases hnumber : number.toInt with
  | ofNat magnitude =>
    obtain ⟨hall, hne, hvalue⟩ := hdigits magnitude
    exact .unsigned (.unsigned hall hne (by rw [hnumber, hvalue]; rfl))
  | negSucc magnitude =>
    obtain ⟨hall, hne, hvalue⟩ := hdigits (magnitude + 1)
    have htext : ("-" ++ toString (magnitude + 1)).toList
        = '-' :: (toString (magnitude + 1)).toList := by
      rw [String.toList_append]
      rfl
    exact .negative (.negative htext hall hne (by rw [hnumber, hvalue]; rfl))

theorem Phrase.MathOperator.of_word (op : MathOp) :
    MathOperator [.reserved op.word] (.math op) := by
  cases op
  · exact .add
  · exact .sub

theorem Phrase.LogicOperator.of_word (op : LogicOp) :
    LogicOperator [.reserved op.word] (.logic op) := by
  cases op
  · exact .and
  · exact .or

theorem Phrase.ComparisonOperator.of_word (op : CompareOp) :
    ComparisonOperator [.reserved op.word] op := by
  cases op
  · exact .lt
  · exact .le
  · exact .gt
  · exact .ge
  · exact .eq
  · exact .ne

namespace Expr

/-- What the lexemes of an arithmetic tree are: an operand of a chain unless they are one. -/
structure ReadsAsArithmetic (tree : Expr) : Prop where
  operand : tree.isMath = false → Phrase.ArithmeticOperand tree.lexemes tree
  whole : Phrase.Arithmetic tree.lexemes tree

/-- What the lexemes of a logical tree are, by themselves and under a negation. -/
structure ReadsAsLogic (tree : Expr) : Prop where
  term : tree.standsUnderNot = true → Phrase.LogicTerm tree.lexemes tree
  operand : tree.isLogic = false → Phrase.LogicOperand tree.lexemes tree
  whole : Phrase.Logic tree.lexemes tree

theorem ReadsAsArithmetic.of_operand {tree : Expr}
    (h : Phrase.ArithmeticOperand tree.lexemes tree) : ReadsAsArithmetic tree :=
  ⟨fun _ => h, .chain (.single h)⟩

/-- A right operand of an arithmetic operator is grouped where it has to be. -/
theorem ReadsAsArithmetic.right {tree : Expr} (h : ReadsAsArithmetic tree) :
    Phrase.ArithmeticOperand (if tree.isMath then grouped tree.lexemes else tree.lexemes) tree := by
  split
  · exact .term (.group h.whole)
  · next hmath => exact h.operand (by simpa using hmath)

theorem ReadsAsLogic.of_term {tree : Expr} (h : Phrase.LogicTerm tree.lexemes tree) :
    ReadsAsLogic tree :=
  ⟨fun _ => h, fun _ => .term h, .chain (.single (.term h))⟩

/-- A right operand of a logical operator is grouped where it has to be. -/
theorem ReadsAsLogic.right {tree : Expr} (h : ReadsAsLogic tree) :
    Phrase.LogicOperand (if tree.isLogic then grouped tree.lexemes else tree.lexemes) tree := by
  split
  · exact .term (.group h.whole)
  · next hlogic => exact h.operand (by simpa using hlogic)

/-- An operand of a negation is grouped where it has to be. -/
theorem ReadsAsLogic.negated {tree : Expr} (h : ReadsAsLogic tree) :
    Phrase.LogicTerm (if tree.standsUnderNot then tree.lexemes else grouped tree.lexemes) tree := by
  split
  · next hstands => exact h.term hstands
  · exact .group h.whole

theorem readsAs (tree : Expr) :
    (tree.isArithmetic = true → ReadsAsArithmetic tree) ∧
      (tree.isLogical = true → ReadsAsLogic tree) := by
  induction tree with
  | literal value =>
    cases value with
    | int number =>
      exact ⟨fun _ => .of_operand (.term (.number (phrase_integerLexemes number))), nofun⟩
    | bool truth =>
      refine ⟨nofun, fun _ => .of_term (.boolean ?_)⟩
      cases truth
      · exact .false
      · exact .true
  | var name => exact ⟨fun _ => .of_operand (.term (.var name)), fun _ => .of_term (.var name)⟩
  | math op left right ihl ihr =>
    refine ⟨fun h => ⟨nofun, ?_⟩, nofun⟩
    rw [isArithmetic, Bool.and_eq_true] at h
    obtain ⟨hleft⟩ := (ihl.1 h.1).whole
    exact .chain (hleft.snoc (.of_word op) (ihr.1 h.2).right)
  | compare op left right ihl ihr =>
    refine ⟨nofun, fun h => .of_term (.comparison ?_)⟩
    rw [isLogical, Bool.and_eq_true] at h
    exact .intro (ihl.1 h.1).whole (.of_word op) (ihr.1 h.2).whole
  | logic op left right ihl ihr =>
    refine ⟨nofun, fun h => ⟨nofun, nofun, ?_⟩⟩
    rw [isLogical, Bool.and_eq_true] at h
    obtain ⟨hleft⟩ := (ihl.2 h.1).whole
    exact .chain (hleft.snoc (.of_word op) (ihr.2 h.2).right)
  | not operand ih => exact ⟨nofun, fun h => .of_term (.not (ih.2 h).negated)⟩
  | call name args ih =>
    have hcall : haveShapes args = true →
        Phrase.Call (Expr.call name args).lexemes (.call name args) := by
      intro hargs
      have hexpressions : ∀ arg ∈ args, Phrase.Expression arg.lexemes (id arg) := by
        intro arg hmem
        rcases Bool.or_eq_true_iff.1 (haveShapes_iff.1 hargs arg hmem) with h | h
        · exact .arithmetic ((ih arg hmem).1 h).whole
        · exact .logic ((ih arg hmem).2 h).whole
      have hlist := commaList_joined hexpressions
      rw [List.map_id] at hlist
      rw [lexemes, lexemesOfArgs_eq_map]
      exact .intro name hlist
    refine ⟨fun h => .of_operand (.call (hcall h)), fun h => ⟨nofun, fun _ => .call (hcall h), ?_⟩⟩
    exact .chain (.single (.call (hcall h)))

/-- The lexemes of a canonical expression spell that expression. -/
theorem phrase_lexemes {tree : Expr} (h : tree.hasShape = true) :
    Phrase.Expression tree.lexemes tree := by
  rcases Bool.or_eq_true_iff.1 h with h | h
  · exact .arithmetic (tree.readsAs.1 h).whole
  · exact .logic (tree.readsAs.2 h).whole

theorem phrase_condition {tree : Expr} (h : tree.isLogical = true) :
    Phrase.Logic tree.lexemes tree :=
  (tree.readsAs.2 h).whole

end Expr

/-! ## Statements and programs -/

/-- A single statement is no chain. -/
theorem Phrase.Statement.isSeq {u : List Lexeme} {stmt : Stmt} (h : Statement u stmt) :
    stmt.isSeq = false := by
  cases h <;> rfl

theorem before_chainFrom {first folded result : Stmt} {w : List Lexeme}
    (h : ChainFrom Phrase.Statement Phrase.Semicolon folded w result) :
    ChainFrom Phrase.Statement Phrase.Semicolon (first.before folded) w (first.before result) := by
  induction h with
  | stop => exact .stop _
  | round hseparator hitem _ ih =>
    cases hseparator
    exact .round .intro hitem ih

/-- Two blocks with a semicolon between them are one block. -/
theorem Phrase.Block.append {u v : List Lexeme} {first second : Stmt} (hfirst : Block u first)
    (hsecond : Block v second) : Block (u ++ .reserved .semicolon :: v) (first.before second) := by
  obtain ⟨hfirst⟩ := hfirst
  obtain ⟨hsecond⟩ := hsecond
  obtain @⟨next, _, v, w, hnext, hrest⟩ := hsecond
  have hjoined := hfirst.snoc .intro hnext
  rw [← Stmt.before_eq_seq hnext.isSeq] at hjoined
  have hall := hjoined.append (before_chainFrom hrest)
  rw [List.append_assoc, List.append_assoc] at hall
  exact .chain hall

namespace Stmt

/-- The lexemes of a block spell it with its chains nested to the left. -/
theorem phrase_lexemes {stmt : Stmt} (h : stmt.hasShape = true) :
    Phrase.Block stmt.lexemes stmt.leftNested := by
  induction stmt with
  | assign name value => exact .chain (.single (.assign name (Expr.phrase_lexemes h)))
  | seq first second ihf ihs =>
    rw [hasShape, Bool.and_eq_true] at h
    exact (ihf h.1).append (ihs h.2)
  | ifThen condition body ih =>
    rw [hasShape, Bool.and_eq_true] at h
    exact .chain (.single (.ifThen (Expr.phrase_condition h.1) (ih h.2)))
  | ifElse condition body alternative ihb iha =>
    rw [hasShape, Bool.and_eq_true, Bool.and_eq_true] at h
    exact .chain (.single (.ifElse (Expr.phrase_condition h.1) (ihb h.2.1) (iha h.2.2)))
  | loop condition body ih =>
    rw [hasShape, Bool.and_eq_true] at h
    exact .chain (.single (.loop (Expr.phrase_condition h.1) (ih h.2)))

end Stmt

theorem FunctionDef.phrase_lexemes {function : FunctionDef} (h : function.hasShape = true) :
    Phrase.Function function.lexemes function.leftNested := by
  obtain ⟨name, params, body, result⟩ := function
  rw [hasShape, Bool.and_eq_true] at h
  have hbody : Phrase.Body (bodyLexemes body) (body.map Stmt.leftNested) := by
    cases body with
    | none => exact .none
    | some body => exact .blockSemicolon (Stmt.phrase_lexemes h.1)
  have hparams : CommaList Phrase.Identifier
      (joined .comma (params.map fun name => [.identifier name])) (params.map id) :=
    commaList_joined fun name _ => .intro name
  rw [List.map_id] at hparams
  exact .intro name hparams hbody (Expr.phrase_lexemes h.2)

/-- The lexemes of a canonical program spell it with its chains nested to the left. -/
theorem Program.phrase_lexemes {program : Program} (h : program.hasShape = true) :
    Phrase.Program program.lexemes program.leftNested := by
  rw [hasShape, Bool.and_eq_true, Bool.not_eq_true', List.isEmpty_eq_false_iff,
    List.all_eq_true] at h
  exact .intro (separatedBy_joined .semicolon h.1 fun function hmem =>
    FunctionDef.phrase_lexemes (h.2 function hmem))

end WhileLang

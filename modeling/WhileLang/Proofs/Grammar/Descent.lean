import WhileLang.Proofs.Grammar.Follow

/-!
# Expressions taken off one lexeme at a time

The grammar of expressions has alternatives that overlap: a name, a call or a parenthesis may start
a logical as well as an arithmetic expression.  Here is a coarser grammar without that distinction,
in which every choice is made by the next lexeme.  It is a function, so there is only one tree.

Main definitions:

- Function {lit}`Descent.expression`: take an expression off the front, to a depth of parentheses.

Main results:

- Theorem {lit}`Descent.expression_shrinks`: what is left was there before.
-/

namespace WhileLang

/-! ## The coarser grammar -/

/-- A function that takes an expression off the front of some lexemes. -/
abbrev Taking : Type :=
  List Lexeme → Option (Expr × List Lexeme)

namespace Descent

/-- The arithmetic operator that a lexeme stands for. -/
def mathOperator? : Lexeme → Option (Expr → Expr → Expr)
  | .reserved .plus => some (.math .add)
  | .reserved .minus => some (.math .sub)
  | _ => none

/-- The logical operator that a lexeme stands for. -/
def logicOperator? : Lexeme → Option (Expr → Expr → Expr)
  | .reserved .logicalAnd => some (.logic .and)
  | .reserved .logicalOr => some (.logic .or)
  | _ => none

/-- The comparison operator that a lexeme stands for. -/
def compareOperator? : Lexeme → Option CompareOp
  | .reserved .lessThan => some .lt
  | .reserved .lessEquals => some .le
  | .reserved .greaterThan => some .gt
  | .reserved .greaterEquals => some .ge
  | .reserved .doubleEquals => some .eq
  | .reserved .notEquals => some .ne
  | _ => none

/-- Arguments up to the closing parenthesis, one or more, but not more than given. -/
def arguments (inner : Taking) : Nat → List Lexeme → Option (List Expr × List Lexeme)
  | 0, _ => none
  | rounds + 1, lexemes =>
    match inner lexemes with
    | some (arg, .reserved .comma :: rest) =>
      (arguments inner rounds rest).map fun (args, rest) => (arg :: args, rest)
    | some (arg, .reserved .rightParen :: rest) => some ([arg], rest)
    | _ => none

/-- A variable, or a call if a parenthesis comes behind the name. -/
def named (inner : Taking) (name : String) : Taking
  | .reserved .leftParen :: .reserved .rightParen :: rest => some (.call name [], rest)
  | .reserved .leftParen :: rest =>
    (arguments inner (rest.length + 1) rest).map fun (args, rest) => (.call name args, rest)
  | rest => some (.var name, rest)

/-- An expression in front of a closing parenthesis. -/
def group (inner : Taking) : Taking := fun lexemes =>
  match inner lexemes with
  | some (tree, .reserved .rightParen :: rest) => some (tree, rest)
  | _ => none

/-- An integer with its sign. -/
def integer (text : String) (rest : List Lexeme) : Option (Expr × List Lexeme) :=
  match Decimal.readInt64 text with
  | .ok value => some (.int value, rest)
  | .error _ => none

/-- An expression without operators on the outside. -/
def atom (inner : Taking) : Taking
  | .identifier name :: rest => named inner name rest
  | .integer digits :: rest => integer digits rest
  | .reserved .minus :: .integer digits :: rest => integer ("-" ++ digits) rest
  | .reserved .trueWord :: rest => some (.bool true, rest)
  | .reserved .falseWord :: rest => some (.bool false, rest)
  | .reserved .leftParen :: rest => group inner rest
  | _ => none

/-- Further operators and items of a chain, at most as many as given. -/
def chainFrom (item : Taking) (operator? : Lexeme → Option (Expr → Expr → Expr)) :
    Nat → Expr → Taking
  | rounds + 1, folded, lexeme :: rest =>
    match operator? lexeme with
    | none => some (folded, lexeme :: rest)
    | some combine =>
      (item rest).bind fun (next, rest) =>
        chainFrom item operator? rounds (combine folded next) rest
  | _, folded, lexemes => some (folded, lexemes)

/-- Items joined by operators. -/
def chain (item : Taking) (operator? : Lexeme → Option (Expr → Expr → Expr)) : Taking :=
  fun lexemes => (item lexemes).bind fun (first, rest) =>
    chainFrom item operator? rest.length first rest

/-- Atoms joined by arithmetic operators. -/
def sum (inner : Taking) : Taking :=
  chain (atom inner) mathOperator?

/-- What follows the left side of a comparison, if it is one. -/
def comparisonFrom (inner : Taking) (left : Expr) : Taking
  | [] => some (left, [])
  | lexeme :: rest =>
    match compareOperator? lexeme with
    | none => some (left, lexeme :: rest)
    | some op => (sum inner rest).map fun (right, rest) => (.compare op left right, rest)

/-- One sum, or two that are compared. -/
def comparison (inner : Taking) : Taking := fun lexemes =>
  (sum inner lexemes).bind fun (left, rest) => comparisonFrom inner left rest

/-- A comparison, perhaps negated. -/
def operand (inner : Taking) : Taking
  | .reserved .logicalNot :: rest => (operand inner rest).map fun (tree, rest) => (.not tree, rest)
  | lexemes => comparison inner lexemes

/-- Operands joined by logical operators. -/
def junction (inner : Taking) : Taking :=
  chain (operand inner) logicOperator?

/-- An expression with parentheses nested to a depth. -/
def expression : Nat → Taking
  | 0 => fun _ => none
  | depth + 1 => junction (expression depth)

end Descent

/-! ## Nothing is put back -/

/-- What is left is no longer than what there was. -/
def Shrinks (take : Taking) : Prop :=
  ∀ lexemes tree rest, take lexemes = some (tree, rest) → rest.length ≤ lexemes.length

namespace Descent

variable {inner item : Taking} {operator? : Lexeme → Option (Expr → Expr → Expr)}

theorem arguments_shrinks (h : Shrinks inner) (rounds : Nat) (lexemes : List Lexeme)
    (args : List Expr) (rest : List Lexeme)
    (hargs : arguments inner rounds lexemes = some (args, rest)) :
    rest.length ≤ lexemes.length := by
  induction rounds generalizing lexemes args with
  | zero => cases hargs
  | succ rounds ih =>
    unfold arguments at hargs
    split at hargs
    · next arg behind hinner =>
      have hlength := h _ _ _ hinner
      rw [Option.map_eq_some_iff] at hargs
      obtain ⟨⟨others, _⟩, hothers, heq⟩ := hargs
      cases heq
      have hrest := ih behind others hothers
      rw [List.length_cons] at hlength
      omega
    · next arg behind hinner =>
      have hlength := h _ _ _ hinner
      cases hargs
      rw [List.length_cons] at hlength
      omega
    · cases hargs

theorem named_shrinks (h : Shrinks inner) (name : String) : Shrinks (named inner name) := by
  intro lexemes tree rest hnamed
  unfold named at hnamed
  split at hnamed
  · cases hnamed
    simp only [List.length_cons]
    omega
  · rw [Option.map_eq_some_iff] at hnamed
    obtain ⟨⟨args, _⟩, hargs, heq⟩ := hnamed
    cases heq
    have hlength := arguments_shrinks h _ _ _ _ hargs
    rw [List.length_cons]
    omega
  · cases hnamed
    exact Nat.le_refl _

theorem group_shrinks (h : Shrinks inner) : Shrinks (group inner) := by
  intro lexemes tree rest hgroup
  unfold group at hgroup
  split at hgroup
  · next hinner =>
    have hlength := h _ _ _ hinner
    cases hgroup
    rw [List.length_cons] at hlength
    omega
  · cases hgroup

theorem integer_shrinks (text : String) : Shrinks (integer text) := by
  intro lexemes tree rest hinteger
  unfold integer at hinteger
  split at hinteger <;> cases hinteger
  exact Nat.le_refl _

theorem atom_shrinks (h : Shrinks inner) : Shrinks (atom inner) := by
  intro lexemes tree rest hatom
  have hcons : ∀ {take : Taking}, Shrinks take → ∀ lexeme behind,
      take behind = some (tree, rest) → rest.length ≤ (lexeme :: behind : List Lexeme).length :=
    fun htake lexeme behind htaken =>
      Nat.le_trans (htake _ _ _ htaken) (by rw [List.length_cons]; exact Nat.le_succ _)
  unfold atom at hatom
  split at hatom
  · exact hcons (named_shrinks h _) _ _ hatom
  · exact hcons (integer_shrinks _) _ _ hatom
  · exact Nat.le_trans (hcons (integer_shrinks _) _ _ hatom) (Nat.le_succ _)
  · cases hatom
    exact Nat.le_succ _
  · cases hatom
    exact Nat.le_succ _
  · exact hcons (group_shrinks h) _ _ hatom
  · cases hatom

theorem chainFrom_shrinks (h : Shrinks item) (rounds : Nat) (folded : Expr) :
    Shrinks (chainFrom item operator? rounds folded) := by
  induction rounds generalizing folded with
  | zero =>
    intro lexemes tree rest hchain
    cases lexemes <;> cases hchain <;> exact Nat.le_refl _
  | succ rounds ih =>
    intro lexemes tree rest hchain
    cases lexemes with
    | nil =>
      cases hchain
      exact Nat.le_refl _
    | cons lexeme behind =>
      unfold chainFrom at hchain
      split at hchain
      · cases hchain
        exact Nat.le_refl _
      · rw [Option.bind_eq_some_iff] at hchain
        obtain ⟨⟨next, after⟩, hitem, hrest⟩ := hchain
        have hlength := h _ _ _ hitem
        have hshorter := ih _ _ _ _ hrest
        rw [List.length_cons]
        omega

theorem chain_shrinks (h : Shrinks item) : Shrinks (chain item operator?) := by
  intro lexemes tree rest hchain
  unfold chain at hchain
  rw [Option.bind_eq_some_iff] at hchain
  obtain ⟨⟨first, after⟩, hitem, hrest⟩ := hchain
  exact Nat.le_trans (chainFrom_shrinks h _ _ _ _ _ hrest) (h _ _ _ hitem)

theorem comparisonFrom_shrinks (h : Shrinks inner) (left : Expr) :
    Shrinks (comparisonFrom inner left) := by
  intro lexemes tree rest hcomparison
  unfold comparisonFrom at hcomparison
  split at hcomparison
  · cases hcomparison
    exact Nat.le_refl _
  · split at hcomparison
    · cases hcomparison
      exact Nat.le_refl _
    · rw [Option.map_eq_some_iff] at hcomparison
      obtain ⟨⟨right, _⟩, hright, heq⟩ := hcomparison
      cases heq
      exact Nat.le_trans (chain_shrinks (atom_shrinks h) _ _ _ hright) (Nat.le_succ _)

theorem comparison_shrinks (h : Shrinks inner) : Shrinks (comparison inner) := by
  intro lexemes tree rest hcomparison
  unfold comparison at hcomparison
  rw [Option.bind_eq_some_iff] at hcomparison
  obtain ⟨⟨left, after⟩, hleft, hrest⟩ := hcomparison
  exact Nat.le_trans (comparisonFrom_shrinks h left _ _ _ hrest)
    (chain_shrinks (atom_shrinks h) _ _ _ hleft)

theorem operand_shrinks (h : Shrinks inner) : Shrinks (operand inner) := by
  intro lexemes
  induction lexemes with
  | nil => exact comparison_shrinks h []
  | cons lexeme behind ih =>
    intro tree rest hoperand
    unfold operand at hoperand
    split at hoperand
    · next heq =>
      cases heq
      rw [Option.map_eq_some_iff] at hoperand
      obtain ⟨⟨negated, _⟩, hnegated, heq⟩ := hoperand
      cases heq
      exact Nat.le_trans (ih _ _ hnegated) (Nat.le_succ _)
    · exact comparison_shrinks h _ _ _ hoperand

theorem expression_shrinks (depth : Nat) : Shrinks (expression depth) := by
  induction depth with
  | zero => exact nofun
  | succ depth ih => exact chain_shrinks (operand_shrinks ih)

end Descent

end WhileLang

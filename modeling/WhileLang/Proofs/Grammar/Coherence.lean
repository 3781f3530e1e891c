import WhileLang.Proofs.Grammar.Descent

/-!
# Expressions at one place are coherent

Phrases of the grammar are taken off by the functions of the coarser one: exactly, if what follows
may follow, and at least in any case.  So of two phrases at one place the one that ends where it
may is the longer one, and two that end at the same place have the same tree.

Main definitions:

- Predicate {lit}`Takes`: the phrases of a language up to a length are taken off.

Main results:

- Theorems {lit}`coherent_expression`, {lit}`coherent_logicOperand` and
  {lit}`coherent_arithmeticOperand`: phrases at one place are coherent.
-/

namespace WhileLang

open Descent

/-- All phrases below a length are taken off, whole if nothing behind them continues them. -/
structure Takes (bound : Nat) (language : Language Expr) (take : Taking)
    (continues : Lexeme → Bool) : Prop where
  exact {u rest : List Lexeme} {tree : Expr} : language u tree → u.length < bound →
    StopsBefore continues rest → take (u ++ rest) = some (tree, rest)
  reaches {u rest behind : List Lexeme} {tree other : Expr} : language u tree → u.length < bound →
    take (u ++ rest) = some (other, behind) → behind.length ≤ rest.length

namespace Takes

variable {bound : Nat} {language : Language Expr} {take : Taking} {continues : Lexeme → Bool}

theorem mono {smaller : Language Expr} (h : Takes bound language take continues)
    (hsmaller : ∀ u tree, smaller u tree → language u tree) :
    Takes bound smaller take continues where
  exact hu := h.exact (hsmaller _ _ hu)
  reaches hu := h.reaches (hsmaller _ _ hu)

theorem shorter (h : Takes (bound + 1) language take continues) :
    Takes bound language take continues where
  exact hu hbound := h.exact hu (Nat.lt_succ_of_lt hbound)
  reaches hu hbound := h.reaches hu (Nat.lt_succ_of_lt hbound)

/-- Phrases that are taken off whole whatever follows. -/
theorem of_always (h : ∀ u rest tree, language u tree → u.length < bound →
    take (u ++ rest) = some (tree, rest)) : Takes bound language take continues where
  exact hu hbound _ := h _ _ _ hu hbound
  reaches hu hbound htake := by
    rw [h _ _ _ hu hbound] at htake
    cases htake
    exact Nat.le_refl _

theorem or {other : Language Expr} (h : Takes bound language take continues)
    (hother : Takes bound other take continues) :
    Takes bound (language.or other) take continues where
  exact hu := hu.elim h.exact hother.exact
  reaches hu := hu.elim h.reaches hother.reaches

/-- What is taken off by a function is coherent. -/
theorem coherent (h : ∀ bound, ∃ take, Takes bound language take continues) :
    Coherent language language (StopsBefore continues) := by
  intro u v rest other a b hu hv hsame hrest
  obtain ⟨take, htake⟩ := h (u.length + v.length + 1)
  have hwhole : take (u ++ rest) = some (a, rest) := htake.exact hu (by omega) hrest
  have hreach : rest.length ≤ other.length := by
    rw [hsame] at hwhole
    exact htake.reaches hv (by omega) hwhole
  have hlengths := congrArg List.length hsame
  rw [List.length_append, List.length_append] at hlengths
  refine ⟨by omega, fun hlength => ?_⟩
  obtain ⟨-, rfl⟩ := List.append_inj hsame hlength.symm
  rw [hsame, htake.exact hv (by omega) hrest] at hwhole
  injection hwhole with hwhole
  exact (Prod.mk.inj hwhole).1.symm

end Takes

/-! ## Chains -/

/-- How operators have to fit together with what continues an item and what continues a chain. -/
structure Joins (operators : Language (Expr → Expr → Expr))
    (operator? : Lexeme → Option (Expr → Expr → Expr)) (continuesItem continues : Lexeme → Bool) :
    Prop where
  reads : ∀ u combine, operators u combine →
    ∃ lexeme, u = [lexeme] ∧ operator? lexeme = some combine ∧ continuesItem lexeme = false
  goesOn : ∀ lexeme combine, operator? lexeme = some combine → continues lexeme = true
  stopsItem : ∀ lexeme, continues lexeme = false → continuesItem lexeme = false

namespace Takes

section

variable {bound : Nat} {items : Language Expr} {operators : Language (Expr → Expr → Expr)}
variable {take : Taking} {operator? : Lexeme → Option (Expr → Expr → Expr)}
variable {continuesItem continues : Lexeme → Bool}

theorem chainFrom_stop (hjoins : Joins operators operator? continuesItem continues) (rounds : Nat)
    (folded : Expr) {rest : List Lexeme} (hrest : StopsBefore continues rest) :
    chainFrom take operator? rounds folded rest = some (folded, rest) := by
  cases rest with
  | nil => cases rounds <;> rfl
  | cons lexeme rest =>
    cases rounds with
    | zero => rfl
    | succ rounds =>
      have hnone : operator? lexeme = none := by
        rw [Option.eq_none_iff_forall_ne_some]
        intro combine hcombine
        have hcontinues := hjoins.goesOn lexeme combine hcombine
        rw [stopsBefore_cons.1 hrest] at hcontinues
        cases hcontinues
      simp only [chainFrom, hnone]

/-- The rest of a chain does not continue the item before it. -/
theorem stopsBefore_chainFrom (hjoins : Joins operators operator? continuesItem continues)
    {folded tree : Expr} {w rest : List Lexeme} (hw : ChainFrom items operators folded w tree)
    (hrest : w = [] → StopsBefore continuesItem rest) : StopsBefore continuesItem (w ++ rest) := by
  cases hw with
  | stop => exact hrest rfl
  | round hu _ _ =>
    obtain ⟨lexeme, rfl, _, hitem⟩ := hjoins.reads _ _ hu
    exact stopsBefore_cons.2 hitem

theorem chainFrom_exact (h : Takes bound items take continuesItem)
    (hjoins : Joins operators operator? continuesItem continues) {folded tree : Expr}
    {w rest : List Lexeme} (hw : ChainFrom items operators folded w tree)
    (hbound : w.length < bound)
    (rounds : Nat) (hrounds : w.length ≤ rounds) (hrest : StopsBefore continues rest) :
    chainFrom take operator? rounds folded (w ++ rest) = some (tree, rest) := by
  induction hw generalizing rounds with
  | stop folded => exact chainFrom_stop hjoins rounds folded hrest
  | @round folded next _ combine _ v w hu hv hw ih =>
    obtain ⟨lexeme, rfl, hoperator, -⟩ := hjoins.reads _ _ hu
    simp only [List.length_append, List.length_cons, List.length_nil] at hbound hrounds
    obtain ⟨rounds, rfl⟩ : ∃ fewer, rounds = fewer + 1 := ⟨rounds - 1, by omega⟩
    have hitem : take (v ++ (w ++ rest)) = some (next, w ++ rest) :=
      h.exact hv (by omega) (stopsBefore_chainFrom hjoins hw fun _ lexeme hhead =>
        hjoins.stopsItem lexeme (hrest lexeme hhead))
    have hnext := ih (by omega) rounds (by omega)
    rw [List.append_assoc, List.append_assoc, List.singleton_append]
    simp only [chainFrom, hoperator, hitem, Option.bind_some, hnext]

theorem chainFrom_reaches (h : Takes bound items take continuesItem) (hshrinks : Shrinks take)
    (hjoins : Joins operators operator? continuesItem continues) {folded tree other : Expr}
    {w rest behind : List Lexeme} (hw : ChainFrom items operators folded w tree)
    (hbound : w.length < bound) (rounds : Nat) (hrounds : w.length ≤ rounds)
    (htaken : chainFrom take operator? rounds folded (w ++ rest) = some (other, behind)) :
    behind.length ≤ rest.length := by
  induction hw generalizing rounds with
  | stop folded => exact chainFrom_shrinks hshrinks rounds folded _ _ _ htaken
  | @round folded next _ combine _ v w hu hv hw ih =>
    obtain ⟨lexeme, rfl, hoperator, -⟩ := hjoins.reads _ _ hu
    simp only [List.length_append, List.length_cons, List.length_nil] at hbound hrounds
    obtain ⟨rounds, rfl⟩ : ∃ fewer, rounds = fewer + 1 := ⟨rounds - 1, by omega⟩
    rw [List.append_assoc, List.append_assoc, List.singleton_append] at htaken
    simp only [chainFrom, hoperator, Option.bind_eq_some_iff] at htaken
    obtain ⟨⟨found, after⟩, hitem, hrest⟩ := htaken
    by_cases hempty : w = []
    · subst hempty
      have hreach : after.length ≤ rest.length := h.reaches hv (by omega) hitem
      exact Nat.le_trans (chainFrom_shrinks hshrinks _ _ _ _ _ hrest) hreach
    · have hexact : take (v ++ (w ++ rest)) = some (next, w ++ rest) :=
        h.exact hv (by omega) (stopsBefore_chainFrom hjoins hw fun hnil => absurd hnil hempty)
      rw [hexact] at hitem
      cases hitem
      exact ih (by omega) rounds (by omega) hrest

theorem chain (h : Takes bound items take continuesItem) (hshrinks : Shrinks take)
    (hjoins : Joins operators operator? continuesItem continues) :
    Takes bound (Chain items operators) (Descent.chain take operator?) continues where
  exact {_ rest tree} hchain hbound hrest := by
    obtain ⟨hu, hv⟩ := hchain
    rename_i first u v
    rw [List.length_append] at hbound
    have hfirst : take (u ++ (v ++ rest)) = some (first, v ++ rest) :=
      h.exact hu (by omega) (stopsBefore_chainFrom hjoins hv fun _ lexeme hhead =>
        hjoins.stopsItem lexeme (hrest lexeme hhead))
    have hothers := h.chainFrom_exact hjoins hv (by omega) (v ++ rest).length
      (by rw [List.length_append]; omega) hrest
    rw [List.append_assoc]
    simp only [Descent.chain, hfirst, Option.bind_some, hothers]
  reaches {_ rest behind tree other} hchain hbound htaken := by
    obtain ⟨hu, hv⟩ := hchain
    rename_i first u v
    rw [List.length_append] at hbound
    rw [List.append_assoc] at htaken
    simp only [Descent.chain, Option.bind_eq_some_iff] at htaken
    obtain ⟨⟨found, after⟩, hitem, hrest⟩ := htaken
    by_cases hempty : v = []
    · subst hempty
      have hreach : after.length ≤ rest.length := h.reaches hu (by omega) hitem
      exact Nat.le_trans (chainFrom_shrinks hshrinks _ _ _ _ _ hrest) hreach
    · have hexact : take (u ++ (v ++ rest)) = some (first, v ++ rest) :=
        h.exact hu (by omega) (stopsBefore_chainFrom hjoins hv fun hnil => absurd hnil hempty)
      rw [hexact] at hitem
      cases hitem
      exact h.chainFrom_reaches hshrinks hjoins hv (by omega) _
        (by rw [List.length_append]; omega) hrest

/-- An item by itself is a chain. -/
theorem chain_item (h : Takes bound items take continuesItem) (hshrinks : Shrinks take)
    (hjoins : Joins operators operator? continuesItem continues) :
    Takes bound items (Descent.chain take operator?) continues :=
  (h.chain hshrinks hjoins).mono fun u _ hu => by
    rw [← List.append_nil u]
    exact .intro hu (.stop _)

end

/-! ## Atoms -/

section

variable {bound : Nat} {inner : Taking} {language : Language Expr} {continues : Lexeme → Bool}

theorem number : Takes bound Phrase.Number (atom inner) continues := by
  refine of_always fun u rest tree hnumber _ => ?_
  cases hnumber with
  | unsigned h | negative h =>
    simp only [List.cons_append, atom, integer, Decimal.readInt64_eq_ok.2 h, List.nil_append]

theorem boolean : Takes bound Phrase.Boolean (atom inner) continues := by
  refine of_always fun u rest tree hboolean _ => ?_
  cases hboolean <;> rfl

/-- A variable, unless it is called. -/
theorem var (hshrinks : Shrinks inner) :
    Takes bound (fun u tree => ∃ name, u = [.identifier name] ∧ tree = .var name) (atom inner)
      Lexeme.continuesOperand where
  exact {_ rest _} := by
    rintro ⟨name, rfl, rfl⟩ _ hrest
    simp only [List.cons_append, List.nil_append, atom, named]
    split
    · exact absurd (stopsBefore_cons.1 hrest) (by decide)
    · exact absurd (stopsBefore_cons.1 hrest) (by decide)
    · rfl
  reaches := by
    rintro _ rest behind _ other ⟨name, rfl, rfl⟩ _ htaken
    exact named_shrinks hshrinks name rest other behind htaken

/-- Whatever is in parentheses is taken off by itself. -/
theorem group (h : Takes bound language inner Lexeme.continuesLogic) :
    Takes (bound + 1) ((language.before .rightParen).behind .leftParen) (atom inner) continues := by
  refine of_always fun u rest tree hgroup hbound => ?_
  obtain ⟨_, rfl, v, rfl, hv⟩ := hgroup
  simp only [List.length_cons, List.length_append, List.length_nil] at hbound
  have hinner : inner (v ++ .reserved .rightParen :: rest)
      = some (tree, .reserved .rightParen :: rest) :=
    h.exact hv (by omega) (stopsBefore_cons.2 rfl)
  simp only [List.cons_append, List.append_assoc, List.nil_append, atom, Descent.group, hinner]

theorem arguments_exact (h : Takes bound language inner Lexeme.continuesLogic) {u : List Lexeme}
    {args : List Expr} (hargs : SeparatedBy .comma language u args) (hbound : u.length < bound)
    (rounds : Nat) (hrounds : u.length < rounds) (rest : List Lexeme) :
    arguments inner rounds (u ++ .reserved .rightParen :: rest) = some (args, rest) := by
  induction hargs generalizing rounds with
  | @one u value hu =>
    obtain ⟨rounds, rfl⟩ : ∃ fewer, rounds = fewer + 1 := ⟨rounds - 1, by omega⟩
    have hinner : inner (u ++ .reserved .rightParen :: rest)
        = some (value, .reserved .rightParen :: rest) :=
      h.exact hu hbound (stopsBefore_cons.2 rfl)
    simp only [arguments, hinner]
  | @cons u v value values hu hv ih =>
    rw [List.length_append, List.length_cons] at hbound hrounds
    obtain ⟨rounds, rfl⟩ : ∃ fewer, rounds = fewer + 1 := ⟨rounds - 1, by omega⟩
    have hinner : inner (u ++ .reserved .comma :: (v ++ .reserved .rightParen :: rest))
        = some (value, .reserved .comma :: (v ++ .reserved .rightParen :: rest)) :=
      h.exact hu (by omega) (stopsBefore_cons.2 rfl)
    have hothers := ih (by omega) rounds (by omega)
    rw [List.append_assoc, List.cons_append]
    simp only [arguments, hinner, hothers, Option.map_some]

theorem call (h : Takes bound Phrase.Expression inner Lexeme.continuesLogic) :
    Takes (bound + 1) Phrase.Call (atom inner) continues := by
  refine of_always fun u rest tree hcall hbound => ?_
  obtain @⟨name, w, args, hargs⟩ := hcall
  cases hargs with
  | none => rfl
  | some hargs =>
    simp only [List.length_cons, List.length_append, List.length_nil] at hbound
    have htaken := h.arguments_exact hargs (by omega)
      ((w ++ .reserved .rightParen :: rest).length + 1)
      (by rw [List.length_append]; omega) rest
    obtain ⟨lexeme, v, rfl, hstarts⟩ :=
      Phrase.startsWith_expression.separatedBy .comma w args hargs
    simp only [List.cons_append, List.append_assoc, List.nil_append, atom, named]
    split
    · next heq =>
      injection heq with _ heq
      injection heq with heq _
      subst heq
      cases hstarts
    · next hother heq =>
      injection heq with _ heq
      subst heq
      rw [List.cons_append] at htaken
      rw [htaken]
      rfl
    · next hother =>
      exact absurd rfl (hother _)

end

end Takes

/-! ## Operators -/

theorem joins_mathOperator : Joins Phrase.MathOperator mathOperator? Lexeme.continuesOperand
    Lexeme.continuesArithmetic where
  reads u combine hoperator := by cases hoperator <;> exact ⟨_, rfl, rfl, rfl⟩
  goesOn lexeme combine hoperator := by
    unfold mathOperator? at hoperator
    split at hoperator
    · rfl
    · rfl
    · cases hoperator
  stopsItem lexeme hstops := by
    unfold Lexeme.continuesArithmetic at hstops
    split at hstops
    · cases hstops
    · cases hstops
    · exact hstops

theorem joins_logicOperator : Joins Phrase.LogicOperator logicOperator? Lexeme.continuesComparison
    Lexeme.continuesLogic where
  reads u combine hoperator := by cases hoperator <;> exact ⟨_, rfl, rfl, rfl⟩
  goesOn lexeme combine hoperator := by
    unfold logicOperator? at hoperator
    split at hoperator
    · rfl
    · rfl
    · cases hoperator
  stopsItem lexeme hstops := by
    unfold Lexeme.continuesLogic at hstops
    split at hstops
    · cases hstops
    · cases hstops
    · exact hstops

theorem compareOperator?_eq_none {lexeme : Lexeme} (h : lexeme.continuesComparison = false) :
    compareOperator? lexeme = none := by
  unfold compareOperator?
  split <;> first | rfl | cases h

theorem continuesArithmetic_of_comparison {lexeme : Lexeme}
    (h : lexeme.continuesComparison = false) :
    lexeme.continuesArithmetic = false := by
  unfold Lexeme.continuesComparison at h
  split at h <;> first | exact h | cases h

/-- Only a negated operand starts with the sign for it. -/
theorem Phrase.LogicTerm.of_not {v : List Lexeme} {tree : Expr}
    (h : LogicTerm (.reserved .logicalNot :: v) tree) :
    ∃ negated, tree = .not negated ∧ LogicTerm v negated := by
  generalize hu : Lexeme.reserved .logicalNot :: v = u at h
  cases h with
  | boolean h => cases h <;> cases hu
  | comparison h =>
    obtain ⟨lexeme, w, rfl, hlexeme⟩ := startsWith_comparison _ _ h
    cases hu
    cases hlexeme
  | not h =>
    cases hu
    exact ⟨_, rfl, h⟩
  | var name => cases hu
  | group h => cases hu

/-! ## Levels of expressions -/

namespace Takes

section

variable {bound : Nat} {inner : Taking} {language : Language Expr}

/-- What is a sum by itself is one side of no comparison. -/
theorem comparison_of_sum (h : Takes bound language (sum inner) Lexeme.continuesArithmetic)
    (hshrinks : Shrinks inner) :
    Takes bound language (comparison inner) Lexeme.continuesComparison where
  exact {u rest tree} hu hbound hrest := by
    have hsum : sum inner (u ++ rest) = some (tree, rest) :=
      h.exact hu hbound fun lexeme hhead => continuesArithmetic_of_comparison (hrest lexeme hhead)
    have hfrom : comparisonFrom inner tree rest = some (tree, rest) := by
      cases rest with
      | nil => rfl
      | cons lexeme rest =>
        simp only [comparisonFrom, compareOperator?_eq_none (stopsBefore_cons.1 hrest)]
    simp only [comparison, hsum, Option.bind_some, hfrom]
  reaches {u rest behind tree other} hu hbound htaken := by
    simp only [comparison, Option.bind_eq_some_iff] at htaken
    obtain ⟨⟨found, after⟩, hsum, hfrom⟩ := htaken
    exact Nat.le_trans (comparisonFrom_shrinks hshrinks found _ _ _ hfrom)
      (h.reaches hu hbound hsum)

/-- Nothing is negated without a sign for it. -/
theorem operand_of_comparison (starts : Lexeme → Bool) (hstarts : language.StartsWith starts)
    (hnot : starts (.reserved .logicalNot) = false)
    (h : Takes bound language (comparison inner) Lexeme.continuesComparison) :
    Takes bound language (operand inner) Lexeme.continuesComparison := by
  have hsame : ∀ u rest tree, language u tree →
      operand inner (u ++ rest) = comparison inner (u ++ rest) := by
    intro u rest tree hu
    obtain ⟨lexeme, v, rfl, hlexeme⟩ := hstarts u tree hu
    rw [List.cons_append]
    unfold operand
    split
    · next heq =>
      injection heq with heq _
      subst heq
      exact absurd hlexeme (by simp [hnot])
    · rfl
  refine ⟨fun {u rest tree} hu => ?_, fun {u rest behind tree other} hu => ?_⟩
  · rw [hsame u rest tree hu]
    exact h.exact hu
  · rw [hsame u rest tree hu]
    exact h.reaches hu

/-- What is an atom by itself is an operand. -/
theorem operand_of_atom (starts : Lexeme → Bool) (hstarts : language.StartsWith starts)
    (hnot : starts (.reserved .logicalNot) = false) (hshrinks : Shrinks inner)
    (hatoms : Takes bound language (atom inner) Lexeme.continuesOperand) :
    Takes bound language (operand inner) Lexeme.continuesComparison :=
  ((hatoms.chain_item (atom_shrinks hshrinks) joins_mathOperator).comparison_of_sum
    hshrinks).operand_of_comparison starts hstarts hnot

variable (h : Takes bound Phrase.Expression inner Lexeme.continuesLogic) (hshrinks : Shrinks inner)
include h hshrinks

theorem arithmeticOperand :
    Takes (bound + 1) Phrase.ArithmeticOperand (atom inner) Lexeme.continuesOperand := by
  have hgroup : Takes (bound + 1) _ (atom inner) Lexeme.continuesOperand :=
    (h.mono fun _ _ => Phrase.Expression.arithmetic).group
  refine ((h.call.or number).or ((var hshrinks).or hgroup)).mono fun u tree hoperand => ?_
  cases hoperand with
  | call h => exact .inl (.inl h)
  | term h =>
    cases h with
    | number h => exact .inl (.inr h)
    | var name => exact .inr (.inl ⟨name, rfl, rfl⟩)
    | group h => exact .inr (.inr ⟨_, rfl, _, rfl, h⟩)

theorem arithmetic :
    Takes (bound + 1) Phrase.Arithmetic (sum inner) Lexeme.continuesArithmetic :=
  ((h.arithmeticOperand hshrinks).chain (atom_shrinks hshrinks) joins_mathOperator).mono
    fun _ _ ⟨hchain⟩ => hchain

theorem comparison :
    Takes (bound + 1) Phrase.Comparison (comparison inner) Lexeme.continuesComparison := by
  have harithmetic := h.arithmetic hshrinks
  have hoperator : ∀ v op, Phrase.ComparisonOperator v op → ∃ lexeme, v = [lexeme] ∧
      compareOperator? lexeme = some op ∧ lexeme.continuesArithmetic = false := by
    intro v op hv
    cases hv <;> exact ⟨_, rfl, rfl, rfl⟩
  -- The left side ends at the operator, so that the right side is all that matters.
  have hleft {u v w rest : List Lexeme} {left : Expr} {op : CompareOp}
      (hu : Phrase.Arithmetic u left) (hv : Phrase.ComparisonOperator v op)
      (hbound : (u ++ (v ++ w)).length < bound + 1) :
      w.length < bound + 1 ∧ ∃ lexeme, compareOperator? lexeme = some op ∧
        Descent.comparison inner (u ++ (v ++ w) ++ rest)
          = comparisonFrom inner left (lexeme :: (w ++ rest)) := by
    obtain ⟨lexeme, rfl, hop, hstops⟩ := hoperator v op hv
    simp only [List.length_append] at hbound
    have hsum : sum inner (u ++ lexeme :: (w ++ rest)) = some (left, lexeme :: (w ++ rest)) :=
      harithmetic.exact hu (by omega) (stopsBefore_cons.2 hstops)
    refine ⟨by omega, lexeme, hop, ?_⟩
    rw [List.append_assoc, List.append_assoc, List.singleton_append, Descent.comparison, hsum,
      Option.bind_some]
  refine ⟨fun {_ rest tree} hcomparison hbound hrest => ?_,
    fun {_ rest behind tree other} hcomparison hbound htaken => ?_⟩
  · obtain ⟨hu, hv, hw⟩ := hcomparison
    obtain ⟨hbound, lexeme, hop, heq⟩ := hleft hu hv hbound
    have hright := harithmetic.exact hw hbound fun lexeme hhead =>
      continuesArithmetic_of_comparison (hrest lexeme hhead)
    rw [heq]
    simp only [comparisonFrom, hop, hright, Option.map_some]
  · obtain ⟨hu, hv, hw⟩ := hcomparison
    obtain ⟨hbound, lexeme, hop, heq⟩ := hleft hu hv hbound
    rw [heq] at htaken
    simp only [comparisonFrom, hop, Option.map_eq_some_iff] at htaken
    obtain ⟨⟨found, _⟩, hright, heq⟩ := htaken
    cases heq
    exact harithmetic.reaches hw hbound hright

/-- An operand that is not negated. -/
theorem positiveTerm :
    Takes (bound + 1)
      (fun u tree => Phrase.LogicTerm u tree ∧ u.head? ≠ some (.reserved .logicalNot))
      (operand inner) Lexeme.continuesComparison := by
  have hgroup : Takes (bound + 1) _ (atom inner) Lexeme.continuesOperand :=
    (h.mono fun _ _ => Phrase.Expression.logic).group
  have hgroup := hgroup.operand_of_atom Lexeme.startsArithmetic
    (by rintro _ _ ⟨v, rfl, _⟩; exact ⟨_, _, rfl, rfl⟩) rfl hshrinks
  have hvar := (var hshrinks : Takes (bound + 1) _ _ _).operand_of_atom Lexeme.startsArithmetic
    (by rintro _ _ ⟨name, rfl, rfl⟩; exact ⟨_, _, rfl, rfl⟩) rfl hshrinks
  have hboolean : Takes (bound + 1) Phrase.Boolean (operand inner) Lexeme.continuesComparison :=
    boolean.operand_of_atom (fun lexeme => lexeme != .reserved .logicalNot)
      (by rintro _ _ (_ | _) <;> exact ⟨_, _, rfl, rfl⟩) rfl hshrinks
  have hcomparison :=
    (h.comparison hshrinks).operand_of_comparison _ Phrase.startsWith_comparison rfl
  refine ((hboolean.or hcomparison).or (hvar.or hgroup)).mono ?_
  rintro u tree ⟨hterm, hhead⟩
  cases hterm with
  | boolean h => exact .inl (.inl h)
  | comparison h => exact .inl (.inr h)
  | not h => exact absurd rfl hhead
  | var name => exact .inr (.inl ⟨name, rfl, rfl⟩)
  | group h => exact .inr (.inr ⟨_, rfl, _, rfl, h⟩)

theorem logicTerm :
    Takes (bound + 1) Phrase.LogicTerm (operand inner) Lexeme.continuesComparison := by
  have hpositive := h.positiveTerm hshrinks
  refine ⟨fun {u rest tree} hterm hbound hrest => ?_,
    fun {u rest behind tree other} hterm hbound htaken => ?_⟩
  · induction u generalizing tree with
    | nil => exact hpositive.exact ⟨hterm, nofun⟩ hbound hrest
    | cons lexeme v ih =>
      by_cases hnot : lexeme = .reserved .logicalNot
      · subst hnot
        obtain ⟨negated, rfl, hnegated⟩ := hterm.of_not
        have htaken := ih hnegated (Nat.lt_of_succ_lt hbound)
        simp only [List.cons_append, operand, htaken, Option.map_some]
      · exact hpositive.exact ⟨hterm, by simpa using hnot⟩ hbound hrest
  · induction u generalizing tree other with
    | nil => exact hpositive.reaches ⟨hterm, nofun⟩ hbound htaken
    | cons lexeme v ih =>
      by_cases hnot : lexeme = .reserved .logicalNot
      · subst hnot
        obtain ⟨negated, rfl, hnegated⟩ := hterm.of_not
        simp only [List.cons_append, operand, Option.map_eq_some_iff] at htaken
        obtain ⟨⟨found, _⟩, htaken, heq⟩ := htaken
        cases heq
        exact ih hnegated (Nat.lt_of_succ_lt hbound) htaken
      · exact hpositive.reaches ⟨hterm, by simpa using hnot⟩ hbound htaken

theorem logicOperand :
    Takes (bound + 1) Phrase.LogicOperand (operand inner) Lexeme.continuesComparison := by
  have hcall : Takes (bound + 1) Phrase.Call (operand inner) Lexeme.continuesComparison :=
    h.call.operand_of_atom _ Phrase.startsWith_call rfl hshrinks
  refine (hcall.or (h.logicTerm hshrinks)).mono fun u tree hoperand => ?_
  cases hoperand with
  | call h => exact .inl h
  | term h => exact .inr h

theorem expression :
    Takes (bound + 1) Phrase.Expression (junction inner) Lexeme.continuesLogic := by
  have hlogic : Takes (bound + 1) Phrase.Logic (junction inner) Lexeme.continuesLogic :=
    ((h.logicOperand hshrinks).chain (operand_shrinks hshrinks) joins_logicOperator).mono
      fun _ _ ⟨hchain⟩ => hchain
  have harithmetic : Takes (bound + 1) Phrase.Arithmetic (junction inner) Lexeme.continuesLogic :=
    (((h.arithmetic hshrinks).comparison_of_sum hshrinks).operand_of_comparison _
      Phrase.startsWith_arithmetic rfl).chain_item (operand_shrinks hshrinks) joins_logicOperator
  refine (hlogic.or harithmetic).mono fun u tree hexpression => ?_
  cases hexpression with
  | logic h => exact .inl h
  | arithmetic h => exact .inr h

end

end Takes

/-! ## Coherence -/

/-- Expressions are taken off to the depth of their length. -/
theorem takes_expression (bound : Nat) :
    Takes bound Phrase.Expression (Descent.expression bound) Lexeme.continuesLogic := by
  induction bound with
  | zero => exact .of_always fun u _ _ _ hbound => absurd hbound (Nat.not_lt_zero u.length)
  | succ bound ih => exact ih.expression (expression_shrinks bound)

theorem coherent_expression :
    Coherent Phrase.Expression Phrase.Expression (StopsBefore Lexeme.continuesLogic) :=
  Takes.coherent fun bound => ⟨_, takes_expression bound⟩

theorem coherent_logicOperand :
    Coherent Phrase.LogicOperand Phrase.LogicOperand (StopsBefore Lexeme.continuesComparison) :=
  Takes.coherent fun bound => ⟨_, ((takes_expression bound).logicOperand
    (expression_shrinks bound)).shorter⟩

theorem coherent_arithmeticOperand :
    Coherent Phrase.ArithmeticOperand Phrase.ArithmeticOperand
      (StopsBefore Lexeme.continuesOperand) :=
  Takes.coherent fun bound => ⟨_, ((takes_expression bound).arithmeticOperand
    (expression_shrinks bound)).shorter⟩

end WhileLang

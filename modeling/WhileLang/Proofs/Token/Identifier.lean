import Mathlib.Data.List.TakeWhile
import WhileLang.Token.Scan

/-!
# The longest match

Which of the rules wins at the start of a text, and which names are read back as identifiers.

Main definitions:

- Function {lit}`isIdentifier`: whether a name by itself is scanned as one identifier.
- Function {lit}`hasIdentifierForm`: whether a name is spelled like one, be it reserved or not.

Main results:

- Theorems {lit}`Kind.longestMatch_eq` and {lit}`Kind.longestMatch_spec`: the first of the longest
  matches wins.
- Theorem {lit}`isIdentifier_chars`: an identifier is a letter followed by letters, digits and
  underscores.
-/

namespace WhileLang

/-! ## Rules that win -/

namespace Kind

variable {input : List Char}

/-- A match is kept as long as no later rule matches further. -/
theorem foldl_betterMatch_eq_self {rules : List Kind} {best : Kind × Nat}
    (h : ∀ rule ∈ rules, rule.matchLength input ≤ best.2) :
    rules.foldl (fun best rule => betterMatch best (rule, rule.matchLength input)) best = best := by
  induction rules with
  | nil => rfl
  | cons rule rest ih =>
    rw [List.forall_mem_cons] at h
    have hkeep : betterMatch best (rule, rule.matchLength input) = best := by
      unfold betterMatch
      rw [if_neg (by simpa using h.1)]
    rw [List.foldl_cons, hkeep]
    exact ih h.2

/-- The best of some matches is as long as any, and is the one before them or one of them. -/
theorem foldl_betterMatch_spec (input : List Char) (rules : List Kind) (best : Kind × Nat) :
    let result :=
      rules.foldl (fun best rule => betterMatch best (rule, rule.matchLength input)) best
    best.2 ≤ result.2 ∧ (∀ rule ∈ rules, rule.matchLength input ≤ result.2)
      ∧ (result = best ∨ ∃ rule ∈ rules, result = (rule, rule.matchLength input)) := by
  induction rules generalizing best with
  | nil => simp
  | cons rule rest ih =>
    simp only [List.foldl_cons]
    obtain ⟨hbest, hrest, hfrom⟩ := ih (betterMatch best (rule, rule.matchLength input))
    by_cases hlt : best.2 < rule.matchLength input
    · have hnew : betterMatch best (rule, rule.matchLength input)
          = (rule, rule.matchLength input) := if_pos hlt
      rw [hnew] at hbest hrest hfrom ⊢
      refine ⟨hlt.le.trans hbest, List.forall_mem_cons.2 ⟨hbest, hrest⟩, Or.inr ?_⟩
      rcases hfrom with hfrom | ⟨other, hmem, hother⟩
      · exact ⟨rule, List.mem_cons_self, hfrom⟩
      · exact ⟨other, List.mem_cons_of_mem _ hmem, hother⟩
    · have hold : betterMatch best (rule, rule.matchLength input) = best := if_neg hlt
      rw [hold] at hbest hrest hfrom ⊢
      refine ⟨hbest, List.forall_mem_cons.2 ⟨(not_lt.1 hlt).trans hbest, hrest⟩, ?_⟩
      rcases hfrom with hfrom | ⟨other, hmem, hother⟩
      · exact Or.inl hfrom
      · exact Or.inr ⟨other, List.mem_cons_of_mem _ hmem, hother⟩

/-- A rule wins if it matches further than the rules before it and as far as those after it. -/
theorem longestMatch_eq {rule : Kind} {before after : List Kind}
    (hrules : Kind.rules = before ++ rule :: after) (hpos : 0 < rule.matchLength input)
    (hbefore : ∀ other ∈ before, other.matchLength input < rule.matchLength input)
    (hafter : ∀ other ∈ after, other.matchLength input ≤ rule.matchLength input) :
    longestMatch input = (rule, rule.matchLength input) := by
  obtain ⟨-, -, hfrom⟩ := foldl_betterMatch_spec input before (.identifier, 0)
  unfold longestMatch
  rw [hrules, List.foldl_append, List.foldl_cons]
  have hlt : (before.foldl (fun best rule => betterMatch best (rule, rule.matchLength input))
      (.identifier, 0)).2 < rule.matchLength input := by
    rcases hfrom with hfrom | ⟨other, hmem, hother⟩
    · rw [hfrom]
      exact hpos
    · rw [hother]
      exact hbefore other hmem
  rw [betterMatch, if_pos hlt]
  exact foldl_betterMatch_eq_self hafter

/-- The rule that wins matches as far as any rule does. -/
theorem longestMatch_spec {rule : Kind} {length : Nat}
    (h : longestMatch input = (rule, length)) (hpos : 0 < length) :
    rule ∈ Kind.rules ∧ length = rule.matchLength input
      ∧ ∀ other ∈ Kind.rules, other.matchLength input ≤ length := by
  obtain ⟨-, hall, hfrom⟩ := foldl_betterMatch_spec input Kind.rules (.identifier, 0)
  change longestMatch input = _ ∨ ∃ rule ∈ Kind.rules, longestMatch input = _ at hfrom
  change ∀ rule ∈ Kind.rules, rule.matchLength input ≤ (longestMatch input).2 at hall
  rw [h] at hall hfrom
  rcases hfrom with hfrom | ⟨other, hmem, hother⟩
  · cases hfrom
    omega
  · cases hother
    exact ⟨hmem, rfl, hall⟩

end Kind

/-! ## Identifiers -/

/-- Whether a name by itself is scanned as one identifier. -/
def isIdentifier (name : String) : Bool :=
  Lexeme.longest? name.toList = some (.identifier name, name.length)

/-- The rule of identifiers has won if the lexeme at the start of a text is one. -/
theorem Lexeme.longest?_identifier {input : List Char} {name : String} {length : Nat}
    (h : Lexeme.longest? input = some (.identifier name, length)) :
    Kind.longestMatch input = (.identifier, length) ∧ 0 < length
      ∧ name = String.ofList (input.take length) := by
  unfold Lexeme.longest? at h
  split at h
  · cases h
  · rename_i kind length' hmatch
    cases kind with
    | identifier =>
      simp only [Kind.lexeme, Option.some.injEq, Prod.mk.injEq, Lexeme.identifier.injEq] at h
      obtain ⟨rfl, rfl⟩ := h
      exact ⟨hmatch, Nat.succ_pos _, rfl⟩
    | reserved word => simp [Kind.lexeme] at h
    | integer => simp [Kind.lexeme] at h

/-- An identifier is a letter followed by letters, digits and underscores. -/
theorem isIdentifier_chars {name : String} (h : isIdentifier name = true) :
    ∃ first rest, name.toList = first :: rest ∧ isIdentifierStart first = true
      ∧ ∀ c ∈ rest, isIdentifierRest c = true := by
  obtain ⟨hmatch, hpos, -⟩ := Lexeme.longest?_identifier (of_decide_eq_true h)
  obtain ⟨-, hlength, -⟩ := Kind.longestMatch_spec hmatch hpos
  cases hchars : name.toList with
  | nil =>
    rw [hchars, Kind.matchLength] at hlength
    exact absurd hlength hpos.ne'
  | cons first rest =>
    have hname : name.length = rest.length + 1 := by
      rw [← String.length_toList, hchars, List.length_cons]
    rw [hchars, Kind.matchLength, hname] at hlength
    split at hlength
    · rename_i hstart
      refine ⟨first, rest, rfl, hstart, ?_⟩
      have hall : rest.takeWhile isIdentifierRest = rest :=
        (List.takeWhile_prefix _).eq_of_length (by omega)
      exact List.takeWhile_eq_self_iff.1 hall
    · omega

/-- A letter that starts an identifier may also continue one. -/
theorem isIdentifierRest_of_start {c : Char} (h : isIdentifierStart c = true) :
    isIdentifierRest c = true := by
  unfold isIdentifierStart at h
  simp [isIdentifierRest, Char.isAlphanum, h]

/--
Whether a name is a letter followed by letters, digits and underscores.  So are some reserved words,
which are not scanned as identifiers.
-/
def hasIdentifierForm (name : String) : Bool :=
  match name.toList with
  | [] => false
  | first :: rest => isIdentifierStart first && rest.all isIdentifierRest

theorem hasIdentifierForm_iff {name : String} : hasIdentifierForm name = true ↔
    ∃ first rest, name.toList = first :: rest ∧ isIdentifierStart first = true
      ∧ ∀ c ∈ rest, isIdentifierRest c = true := by
  unfold hasIdentifierForm
  cases name.toList with
  | nil => simp
  | cons first rest =>
    rw [Bool.and_eq_true, List.all_eq_true]
    constructor
    · exact fun h => ⟨first, rest, rfl, h⟩
    · rintro ⟨_, _, heq, h⟩
      cases heq
      exact h

theorem hasIdentifierForm_of_isIdentifier {name : String} (h : isIdentifier name = true) :
    hasIdentifierForm name = true :=
  hasIdentifierForm_iff.2 (isIdentifier_chars h)

theorem isIdentifierRest_of_form {name : String} (h : hasIdentifierForm name = true) {c : Char}
    (hc : c ∈ name.toList) : isIdentifierRest c = true := by
  obtain ⟨first, rest, hchars, hstart, hrest⟩ := hasIdentifierForm_iff.1 h
  rw [hchars, List.mem_cons] at hc
  rcases hc with rfl | hc
  · exact isIdentifierRest_of_start hstart
  · exact hrest c hc

theorem isIdentifierRest_of_mem {name : String} (h : isIdentifier name = true) {c : Char}
    (hc : c ∈ name.toList) : isIdentifierRest c = true :=
  isIdentifierRest_of_form (hasIdentifierForm_of_isIdentifier h) hc

end WhileLang

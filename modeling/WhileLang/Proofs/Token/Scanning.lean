import WhileLang.Proofs.Token.Identifier
import WhileLang.Proofs.Token.Reserved

/-!
# Texts and their lexemes

Scanning without places: how a text splits into lexemes, and which lexemes are read back from their
spelling because nothing behind them makes the match longer.

Main definitions:

- Relation {lit}`Scans`: a text splits into lexemes.
- Predicate {lit}`EndsWord`: what may stand behind a name, a keyword or a numeral.

Main results:

- Theorems {lit}`Token.scan_of_scans` and {lit}`Token.scans_of_scan`: what the scanner yields.
- Theorems {lit}`Scans.word`, {lit}`Scans.name` and {lit}`Scans.digits`: one lexeme more.
- Theorem {lit}`Scans.isIdentifier`: names that are scanned are identifiers.
-/

namespace WhileLang

/-! ## Splitting a text -/

/-- A text splits into lexemes, each the longest at its place, with blanks between them. -/
inductive Scans : List Char → List Lexeme → Prop where
  | done : Scans [] []
  | blank {c : Char} {rest : List Char} {lexemes : List Lexeme} (hblank : isBlank c = true)
      (hrest : Scans rest lexemes) : Scans (c :: rest) lexemes
  | lexeme {c : Char} {rest : List Char} {lexeme : Lexeme} {length : Nat} {lexemes : List Lexeme}
      (hblank : isBlank c = false) (hlexeme : Lexeme.longest? (c :: rest) = some (lexeme, length))
      (hrest : Scans ((c :: rest).drop length) lexemes) : Scans (c :: rest) (lexeme :: lexemes)

namespace Token

/-- A text that splits into lexemes is scanned as these. -/
theorem scanFrom_of_scans {input : List Char} {lexemes : List Lexeme} (h : Scans input lexemes)
    (source : String) (offset : Nat) (position : Position) (found : List Token) :
    ∃ tokens, scanFrom source offset position found input = .ok (found.reverse ++ tokens)
      ∧ tokens.map (·.lexeme) = lexemes := by
  induction h generalizing offset position found with
  | done => exact ⟨[], by rw [scanFrom, List.append_nil], rfl⟩
  | blank hblank _ ih =>
    rw [scanFrom, if_pos hblank]
    exact ih _ _ _
  | @lexeme c rest lexeme length lexemes hblank hlexeme _ ih =>
    rw [scanFrom, if_neg (by simp [hblank])]
    split
    · next hnone =>
      rw [hlexeme] at hnone
      cases hnone
    · next hsome =>
      rw [hlexeme, Option.some.injEq, Prod.mk.injEq] at hsome
      obtain ⟨rfl, rfl⟩ := hsome
      obtain ⟨tokens, hscan, hlexemes⟩ := ih (offset + length) (position.advance length)
        (⟨lexeme, ⟨position, position.advance length, source⟩⟩ :: found)
      refine ⟨⟨lexeme, ⟨position, position.advance length, source⟩⟩ :: tokens, ?_, ?_⟩
      · rw [hscan, List.reverse_cons, List.append_assoc]
        rfl
      · rw [List.map_cons, hlexemes]

/-- A source is scanned if one pass goes through it. -/
theorem scan_eq_ok {source : String} {tokens : List Token} :
    scan source = .ok tokens ↔ lex source = .ok tokens := by
  unfold scan
  cases lex source <;> simp [Except.mapError]

theorem scan_of_scans {source : String} {lexemes : List Lexeme}
    (h : Scans source.toList lexemes) :
    ∃ tokens, scan source = .ok tokens ∧ tokens.map (·.lexeme) = lexemes := by
  obtain ⟨tokens, hlex, hlexemes⟩ := scanFrom_of_scans h source 0 .start []
  exact ⟨tokens, scan_eq_ok.2 hlex, hlexemes⟩

/-- What is scanned is a text that splits into the lexemes found. -/
theorem scans_of_scanFrom {source : String} {offset : Nat} {position : Position}
    {found tokens : List Token} {input : List Char}
    (h : scanFrom source offset position found input = .ok tokens) :
    ∃ behind, tokens = found.reverse ++ behind ∧ Scans input (behind.map (·.lexeme)) := by
  fun_induction scanFrom source offset position found input with
  | case1 offset position found =>
    cases h
    exact ⟨[], (List.append_nil _).symm, .done⟩
  | case2 offset position found c rest hblank ih =>
    obtain ⟨behind, htokens, hscans⟩ := ih h
    exact ⟨behind, htokens, .blank hblank hscans⟩
  | case3 => cases h
  | case4 offset position found c rest hblank lexeme length hlexeme next ih =>
    obtain ⟨behind, htokens, hscans⟩ := ih h
    refine ⟨⟨lexeme, ⟨position, next, source⟩⟩ :: behind, ?_, ?_⟩
    · rw [htokens, List.reverse_cons, List.append_assoc]
      rfl
    · exact .lexeme (by simpa using hblank) hlexeme hscans

theorem scans_of_scan {source : String} {tokens : List Token} (h : scan source = .ok tokens) :
    Scans source.toList (tokens.map (·.lexeme)) := by
  obtain ⟨behind, rfl, hscans⟩ := scans_of_scanFrom (scan_eq_ok.1 h)
  exact hscans

end Token

/-! ## Matches in front of other text -/

/-- No word goes on here: nothing is left, or the next character belongs to no word. -/
def EndsWord (rest : List Char) : Prop :=
  ∀ c, rest.head? = some c → isIdentifierRest c = false

@[simp]
theorem endsWord_nil : EndsWord [] := by
  simp [EndsWord]

@[simp]
theorem endsWord_cons {c : Char} {rest : List Char} :
    EndsWord (c :: rest) ↔ isIdentifierRest c = false := by
  simp [EndsWord]

namespace Kind

variable {first : Char} {text rest : List Char}

theorem takeWhile_append_of_stop {p : Char → Bool} (text : List Char)
    (h : ∀ c, rest.head? = some c → p c = false) :
    (text ++ rest).takeWhile p = text.takeWhile p := by
  have hrest : rest.takeWhile p = [] := by
    cases rest with
    | nil => rfl
    | cons c rest => rw [List.takeWhile_cons, h c rfl, if_neg Bool.false_ne_true]
  rw [List.takeWhile_append, hrest, List.append_nil]
  split
  · next hlength =>
    exact ((List.takeWhile_prefix p).eq_of_length hlength).symm
  · rfl

/-- No rule matches further because of what stands behind a text, if no lexeme goes on there. -/
theorem matchLength_append (hdigit : first.isDigit = false)
    (hword : isIdentifierStart first = true → EndsWord rest)
    (hreserved : ∀ (word : Reserved) (c : Char), rest.head? = some c →
      ¬ (first :: text) ++ [c] <+: word.text.toList) (rule : Kind) :
    rule.matchLength (first :: text ++ rest) = rule.matchLength (first :: text) := by
  cases rule with
  | reserved word =>
    have hprefix : word.text.toList.isPrefixOf (first :: text ++ rest)
        = word.text.toList.isPrefixOf (first :: text) := by
      rw [Bool.eq_iff_iff, List.isPrefixOf_iff_prefix, List.isPrefixOf_iff_prefix]
      constructor
      · intro h
        rcases List.prefix_or_prefix_of_prefix h (List.prefix_append _ rest) with h' | ⟨behind, heq⟩
        · exact h'
        · cases behind with
          | nil => exact ⟨[], by rw [List.append_nil, ← heq, List.append_nil]⟩
          | cons c behind =>
            rw [← heq, List.prefix_append_right_inj] at h
            obtain ⟨other, rfl⟩ := h
            refine absurd ⟨behind, ?_⟩ (hreserved word c rfl)
            rw [← heq, List.append_assoc]
            rfl
      · exact fun h => h.trans (List.prefix_append _ _)
    rw [matchLength, matchLength, hprefix]
  | identifier =>
    rw [List.cons_append, matchLength, matchLength]
    by_cases hstart : isIdentifierStart first = true
    · rw [if_pos hstart, if_pos hstart, takeWhile_append_of_stop text (hword hstart)]
    · rw [if_neg hstart, if_neg hstart]
  | integer => simp [matchLength, hdigit]

/-- The winning rule depends on the lengths of the matches only. -/
theorem longestMatch_congr {input input' : List Char}
    (h : ∀ rule : Kind, rule.matchLength input = rule.matchLength input') :
    longestMatch input = longestMatch input' := by
  unfold longestMatch
  simp only [h]

end Kind

/-- A text is divided in one way only where a property ends. -/
theorem append_inj_of_stop {p : Char → Bool} {text text' rest rest' : List Char}
    (htext : ∀ c ∈ text, p c = true) (htext' : ∀ c ∈ text', p c = true)
    (hrest : ∀ c, rest.head? = some c → p c = false)
    (hrest' : ∀ c, rest'.head? = some c → p c = false) (h : text ++ rest = text' ++ rest') :
    text = text' ∧ rest = rest' := by
  have hprefix := congrArg (List.takeWhile p) h
  rw [Kind.takeWhile_append_of_stop text hrest, Kind.takeWhile_append_of_stop text' hrest',
    List.takeWhile_eq_self_iff.2 htext, List.takeWhile_eq_self_iff.2 htext'] at hprefix
  subst hprefix
  exact ⟨rfl, List.append_cancel_left h⟩

theorem not_isDigit_of_start {c : Char} (h : isIdentifierStart c = true) : c.isDigit = false := by
  unfold isIdentifierStart Char.isAlpha Char.isUpper Char.isLower at h
  unfold Char.isDigit
  simp only [Bool.or_eq_true, Bool.and_eq_true, decide_eq_true_eq, ge_iff_le,
    UInt32.le_iff_toNat_le, Bool.and_eq_false_iff, decide_eq_false_iff_not] at h ⊢
  have hA : 'A'.val.toNat = 65 := rfl
  have ha : 'a'.val.toNat = 97 := rfl
  have h9 : '9'.val.toNat = 57 := rfl
  omega

theorem not_isBlank_of_word {c : Char} (h : isIdentifierRest c = true) : isBlank c = false := by
  by_contra hblank
  rw [Bool.not_eq_false, isBlank] at hblank
  simp only [Bool.or_eq_true, decide_eq_true_eq] at hblank
  rcases hblank with (((rfl | rfl) | rfl) | rfl) | rfl <;> revert h <;> decide

/-- No word goes on behind letters with a character that belongs to no word. -/
theorem not_prefix_of_start {word : Reserved} {first c : Char} {text : List Char}
    (hstart : isIdentifierStart first = true) (hstops : isIdentifierRest c = false) :
    ¬ (first :: text) ++ [c] <+: word.text.toList := by
  rintro ⟨behind, hword⟩
  obtain ⟨other, chars, htext, -, -, hletter⟩ := word.text_toList
  rw [htext, List.append_assoc, List.cons_append] at hword
  injection hword with hfirst hchars
  subst hfirst
  have hc := (hletter hstart).1 c (by rw [← hchars]; simp)
  rw [hstops] at hc
  cases hc

namespace Lexeme

variable {rest : List Char}

theorem longest?_eq_some {input : List Char} {kind : Kind} {length : Nat}
    (h : Kind.longestMatch input = (kind, length)) (hpos : 0 < length) :
    longest? input = some (kind.lexeme (input.take length), length) := by
  obtain ⟨shorter, rfl⟩ : ∃ shorter, length = shorter + 1 := ⟨length - 1, by omega⟩
  unfold longest?
  rw [h]

/-- A word is read back where nothing makes another lexeme of it. -/
theorem longest?_word (word : Reserved) (h : ∀ c, rest.head? = some c → word.goesOn c = false) :
    longest? (word.text.toList ++ rest) = some (.reserved word, word.text.length) := by
  obtain ⟨first, text, htext, hdigit, -, hletter⟩ := word.text_toList
  have hsame : Kind.longestMatch (word.text.toList ++ rest)
      = Kind.longestMatch word.text.toList := by
    refine Kind.longestMatch_congr fun rule => ?_
    rw [htext]
    refine Kind.matchLength_append hdigit (fun hstart c hc => ?_)
      (fun other c hc hprefix => ?_) rule
    · rw [← (hletter hstart).2 c]
      exact h c hc
    · rw [← htext] at hprefix
      have hstops := h c hc
      rw [Reserved.goesOn_of_prefix hprefix] at hstops
      cases hstops
  have hmatch : Kind.longestMatch word.text.toList = (.reserved word, word.text.length) := by
    cases word <;> decide +kernel
  have hpos : 0 < word.text.length := by
    rw [← String.length_toList, htext]
    exact Nat.succ_pos _
  rw [longest?_eq_some (hsame.trans hmatch) hpos]
  rfl

/-- An identifier is read back in front of what belongs to no word. -/
theorem longest?_name {name : String} (hname : isIdentifier name = true) (h : EndsWord rest) :
    longest? (name.toList ++ rest) = some (.identifier name, name.length) := by
  obtain ⟨first, text, htext, hstart, hchars⟩ := isIdentifier_chars hname
  have hsame : Kind.longestMatch (name.toList ++ rest) = Kind.longestMatch name.toList := by
    refine Kind.longestMatch_congr fun rule => ?_
    rw [htext]
    exact Kind.matchLength_append (not_isDigit_of_start hstart) (fun _ => h)
      (fun word c hc => not_prefix_of_start hstart (h c hc)) rule
  obtain ⟨hmatch, hpos, -⟩ := Lexeme.longest?_identifier (of_decide_eq_true hname)
  rw [longest?_eq_some (hsame.trans hmatch) hpos, ← String.length_toList, List.take_left]
  simp [Kind.lexeme]

/-- Digits are read back in front of what belongs to no word. -/
theorem longest?_digits {digits : String} (hdigits : digits.toList.all Char.isDigit = true)
    (hne : digits.toList ≠ []) (h : EndsWord rest) :
    longest? (digits.toList ++ rest) = some (.integer digits, digits.length) := by
  obtain ⟨first, text, htext⟩ := List.exists_cons_of_ne_nil hne
  have hfirst : first.isDigit = true := by
    rw [htext, List.all_cons, Bool.and_eq_true] at hdigits
    exact hdigits.1
  have hlength : Kind.integer.matchLength (digits.toList ++ rest) = digits.length := by
    rw [Kind.matchLength, Kind.takeWhile_append_of_stop, List.takeWhile_eq_self_iff.2,
      String.length_toList]
    · exact List.all_eq_true.1 hdigits
    · intro c hc
      have hrest := h c hc
      unfold isIdentifierRest Char.isAlphanum at hrest
      simp only [Bool.or_eq_false_iff] at hrest
      exact hrest.1.2
  have hpos : 0 < digits.length := by
    rw [← String.length_toList]
    exact List.length_pos_iff.2 hne
  have hother : ∀ rule : Kind, rule ≠ .integer → rule.matchLength (digits.toList ++ rest) = 0 := by
    intro rule hrule
    rw [htext]
    cases rule with
    | reserved word =>
      obtain ⟨other, chars, hword, hdigit, -⟩ := word.text_toList
      have hdifferent : other ≠ first := by
        rintro rfl
        rw [hdigit] at hfirst
        cases hfirst
      simp [Kind.matchLength, hword, hdifferent]
    | identifier =>
      have hstart : isIdentifierStart first = false := by
        by_contra hstart
        rw [not_isDigit_of_start (by simpa using hstart)] at hfirst
        cases hfirst
      simp [Kind.matchLength, hstart]
    | integer => exact absurd rfl hrule
  have hmatch : Kind.longestMatch (digits.toList ++ rest) = (.integer, digits.length) := by
    have hrules : Kind.rules = Kind.rules.take 9 ++ .integer :: Kind.rules.drop 10 := rfl
    rw [← hlength]
    refine Kind.longestMatch_eq hrules (by rw [hlength]; exact hpos) ?_ ?_
    · intro rule hmem
      rw [hlength, hother rule (by rintro rfl; exact absurd hmem (by decide))]
      exact hpos
    · intro rule hmem
      rw [hother rule (by rintro rfl; exact absurd hmem (by decide))]
      exact Nat.zero_le _
  rw [longest?_eq_some hmatch hpos, ← String.length_toList, List.take_left]
  simp [Kind.lexeme]

/-- A name that is found at the start of a text is an identifier by itself. -/
theorem isIdentifier_of_longest? {input : List Char} {name : String} {length : Nat}
    (h : longest? input = some (.identifier name, length)) : isIdentifier name = true := by
  obtain ⟨hmatch, hpos, rfl⟩ := longest?_identifier h
  obtain ⟨-, hlength, -⟩ := Kind.longestMatch_spec hmatch hpos
  cases input with
  | nil =>
    rw [hlength] at hpos
    exact absurd hpos (Nat.lt_irrefl 0)
  | cons first chars =>
    rw [Kind.matchLength] at hlength
    split at hlength
    · next hstart =>
      have htake : (first :: chars).take length = first :: chars.takeWhile isIdentifierRest := by
        rw [hlength, List.take_succ_cons,
          List.prefix_iff_eq_take.1 (List.takeWhile_prefix isIdentifierRest), List.length_take,
          Nat.min_eq_left ((List.takeWhile_prefix isIdentifierRest).length_le)]
      have hends : EndsWord (chars.dropWhile isIdentifierRest) := by
        intro c hc
        have hstops := List.head?_dropWhile_not isIdentifierRest chars
        rw [hc] at hstops
        simpa using hstops
      have hsame : Kind.longestMatch (first :: chars)
          = Kind.longestMatch (first :: chars.takeWhile isIdentifierRest) := by
        refine Kind.longestMatch_congr fun rule => ?_
        have hreserved : ∀ (word : Reserved) (c : Char),
            (chars.dropWhile isIdentifierRest).head? = some c →
              ¬ (first :: chars.takeWhile isIdentifierRest) ++ [c] <+: word.text.toList :=
          fun word c hc => not_prefix_of_start hstart (hends c hc)
        have happend :=
          Kind.matchLength_append (not_isDigit_of_start hstart) (fun _ => hends) hreserved rule
        rwa [List.cons_append, List.takeWhile_append_dropWhile] at happend
      rw [hmatch] at hsame
      have hread := longest?_eq_some hsame.symm hpos
      rw [← htake, List.take_take, Nat.min_self] at hread
      rw [isIdentifier, decide_eq_true_eq, String.toList_ofList, hread, ← String.length_toList,
        String.toList_ofList, htake, List.length_cons, hlength]
      rfl
    · exact absurd hpos (by omega)

end Lexeme

/-! ## One lexeme more -/

namespace Scans

variable {rest : List Char} {lexemes : List Lexeme}

theorem of_longest? {first : Char} {text : List Char} {lexeme : Lexeme}
    (hblank : isBlank first = false)
    (hlexeme : Lexeme.longest? (first :: text ++ rest) = some (lexeme, (first :: text).length))
    (hrest : Scans rest lexemes) : Scans (first :: text ++ rest) (lexeme :: lexemes) := by
  have hbehind : Scans ((first :: text ++ rest).drop (first :: text).length) lexemes := by
    rw [List.drop_left]
    exact hrest
  exact .lexeme hblank hlexeme hbehind

theorem word (word : Reserved) (hrest : Scans rest lexemes)
    (h : ∀ c, rest.head? = some c → word.goesOn c = false) :
    Scans (word.text.toList ++ rest) (.reserved word :: lexemes) := by
  obtain ⟨first, text, htext, -, hblank, -⟩ := word.text_toList
  have hlexeme := Lexeme.longest?_word word h
  rw [← String.length_toList] at hlexeme
  rw [htext] at hlexeme ⊢
  exact of_longest? hblank hlexeme hrest

theorem name {name : String} (hname : isIdentifier name = true) (hrest : Scans rest lexemes)
    (h : EndsWord rest) : Scans (name.toList ++ rest) (.identifier name :: lexemes) := by
  obtain ⟨first, text, htext, hstart, -⟩ := isIdentifier_chars hname
  have hlexeme := Lexeme.longest?_name hname h
  rw [← String.length_toList] at hlexeme
  rw [htext] at hlexeme ⊢
  exact of_longest? (not_isBlank_of_word (isIdentifierRest_of_start hstart)) hlexeme hrest

theorem digits {digits : String} (hdigits : digits.toList.all Char.isDigit = true)
    (hne : digits.toList ≠ []) (hrest : Scans rest lexemes) (h : EndsWord rest) :
    Scans (digits.toList ++ rest) (.integer digits :: lexemes) := by
  obtain ⟨first, text, htext⟩ := List.exists_cons_of_ne_nil hne
  have hlexeme := Lexeme.longest?_digits hdigits hne h
  rw [← String.length_toList] at hlexeme
  rw [htext] at hlexeme hdigits ⊢
  rw [List.all_cons, Bool.and_eq_true] at hdigits
  refine of_longest? (not_isBlank_of_word ?_) hlexeme hrest
  simp [isIdentifierRest, Char.isAlphanum, hdigits.1]

/-- Every lexeme that is scanned is the longest one somewhere. -/
theorem exists_longest? {input : List Char} {lexeme : Lexeme} (h : Scans input lexemes)
    (hmem : lexeme ∈ lexemes) : ∃ rest length, Lexeme.longest? rest = some (lexeme, length) := by
  induction h with
  | done => cases hmem
  | blank _ _ ih => exact ih hmem
  | lexeme _ hlexeme _ ih =>
    cases hmem with
    | head => exact ⟨_, _, hlexeme⟩
    | tail _ hmem => exact ih hmem

/-- Names that are scanned are identifiers. -/
theorem isIdentifier {input : List Char} {name : String} (h : Scans input lexemes)
    (hmem : .identifier name ∈ lexemes) : WhileLang.isIdentifier name = true := by
  obtain ⟨rest, length, hlexeme⟩ := h.exists_longest? hmem
  exact Lexeme.isIdentifier_of_longest? hlexeme

end Scans

end WhileLang

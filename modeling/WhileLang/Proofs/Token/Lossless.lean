import Mathlib.Data.String.Basic
import WhileLang.Proofs.Text.Numerals
import WhileLang.Proofs.Token.Scanning

/-!
# What a scan keeps of its source

A source that is scanned consists of the lexemes found and of blanks.  A source that is not is cut
in two where the scanner stops: the first part is scanned by itself, to the very tokens that are
reported, and nothing the scanner takes stands at the start of the second.

Main definitions:

- Predicate {lit}`Kind.Declares`: the texts of a rule.
- Relation {lit}`IsWritten`: a text consists of lexemes and of blanks.
- Structures {lit}`IsStuck` and {lit}`ScanError.Splits`: where the scanner stops, and how a failure
  cuts the source.

Main results:

- Theorem {lit}`Kind.matchLength_take`: a match does not depend on what stands behind it.
- Theorem {lit}`Token.scanFrom_eq_error`: how a pass fails.
- Theorem {lit}`Token.scan_lossless`: every source is accounted for.
-/

namespace WhileLang

/-! ## The texts of the rules -/

namespace Kind

/-- The texts of a rule: one spelling, a letter and what continues it, or digits. -/
def Declares : Kind → List Char → Prop
  | .reserved word, text => text = word.text.toList
  | .identifier, text =>
    ∃ first rest, text = first :: rest ∧ isIdentifierStart first = true
      ∧ ∀ c ∈ rest, isIdentifierRest c = true
  | .integer, text => text ≠ [] ∧ ∀ c ∈ text, c.isDigit = true

variable {rule : Kind} {input text : List Char}

theorem Declares.length_pos (h : rule.Declares text) : 0 < text.length := by
  rw [List.length_pos_iff]
  cases rule with
  | reserved word =>
    obtain ⟨first, chars, hword, -⟩ := word.text_toList
    rw [show text = _ from h, hword]
    exact List.cons_ne_nil _ _
  | identifier =>
    obtain ⟨first, rest, rfl, -⟩ := h
    exact List.cons_ne_nil _ _
  | integer => exact h.1

/-- The texts of the rules are ASCII. -/
theorem Declares.utf8Size_eq_one (h : rule.Declares text) {c : Char} (hc : c ∈ text) :
    c.utf8Size = 1 := by
  have hword {c : Char} (hc : isIdentifierRest c = true) : c.utf8Size = 1 := by
    rw [Char.utf8Size_eq_one_iff]
    unfold isIdentifierRest Char.isAlphanum Char.isAlpha Char.isUpper Char.isLower
      Char.isDigit at hc
    simp only [Bool.or_eq_true, Bool.and_eq_true, decide_eq_true_eq, UInt32.le_iff_toNat_le,
      ge_iff_le] at hc
    rcases hc with ((⟨-, hc⟩ | ⟨-, hc⟩) | ⟨-, hc⟩) | rfl
    · exact UInt32.le_iff_toNat_le.2 (hc.trans (by decide))
    · exact UInt32.le_iff_toNat_le.2 (hc.trans (by decide))
    · exact UInt32.le_iff_toNat_le.2 (hc.trans (by decide))
    · decide
  cases rule with
  | reserved word =>
    have hspelling : word.text.toList.all (·.utf8Size = 1) = true := by
      cases word
      all_goals rfl
    rw [show text = _ from h] at hc
    exact of_decide_eq_true (List.all_eq_true.1 hspelling c hc)
  | identifier =>
    obtain ⟨first, rest, rfl, hstart, hrest⟩ := h
    rcases List.mem_cons.1 hc with rfl | hc
    · exact hword (isIdentifierRest_of_start hstart)
    · exact hword (hrest c hc)
  | integer => exact hword (by simp [isIdentifierRest, Char.isAlphanum, h.2 c hc])

theorem matchLength_le_length (rule : Kind) (input : List Char) :
    rule.matchLength input ≤ input.length := by
  cases rule with
  | reserved word =>
    rw [matchLength]
    split
    · next hword =>
      rw [← String.length_toList]
      exact (List.isPrefixOf_iff_prefix.1 hword).length_le
    · exact Nat.zero_le _
  | identifier =>
    cases input with
    | nil => exact Nat.zero_le _
    | cons first rest =>
      rw [matchLength]
      split
      · exact Nat.succ_le_succ (List.takeWhile_prefix _).length_le
      · exact Nat.zero_le _
  | integer => exact (List.takeWhile_prefix _).length_le

/-- A rule matches one of its texts. -/
theorem declares_take (h : 0 < rule.matchLength input) :
    rule.Declares (input.take (rule.matchLength input)) := by
  cases rule with
  | reserved word =>
    rw [matchLength] at h ⊢
    split at h
    · next hword =>
      rw [if_pos hword, ← String.length_toList]
      exact (List.prefix_iff_eq_take.1 (List.isPrefixOf_iff_prefix.1 hword)).symm
    · exact absurd h (Nat.lt_irrefl 0)
  | identifier =>
    cases input with
    | nil => exact absurd h (Nat.lt_irrefl 0)
    | cons first rest =>
      rw [matchLength] at h ⊢
      split at h
      · next hstart =>
        rw [if_pos hstart, List.take_succ_cons,
          ← List.prefix_iff_eq_take.1 (List.takeWhile_prefix isIdentifierRest)]
        exact ⟨first, _, rfl, hstart, fun c hc => List.mem_takeWhile_imp hc⟩
      · exact absurd h (Nat.lt_irrefl 0)
  | integer =>
    rw [matchLength] at h ⊢
    rw [← List.prefix_iff_eq_take.1 (List.takeWhile_prefix Char.isDigit)]
    exact ⟨List.length_pos_iff.1 h, fun c hc => List.mem_takeWhile_imp hc⟩

/-- No text of a rule at the start of an input is longer than the match. -/
theorem Declares.length_le (h : rule.Declares text) (hstarts : text <+: input) :
    text.length ≤ rule.matchLength input := by
  obtain ⟨behind, rfl⟩ := hstarts
  cases rule with
  | reserved word =>
    rw [show text = _ from h, matchLength,
      if_pos (List.isPrefixOf_iff_prefix.2 (List.prefix_append _ _)), String.length_toList]
  | identifier =>
    obtain ⟨first, rest, rfl, hstart, hrest⟩ := h
    rw [List.cons_append, matchLength, if_pos hstart, List.takeWhile_append_of_pos hrest,
      List.length_cons, List.length_append]
    omega
  | integer =>
    rw [matchLength, List.takeWhile_append_of_pos h.2, List.length_append]
    omega

/-- A match does not depend on what stands behind it. -/
theorem matchLength_take {length : Nat} (h : rule.matchLength input ≤ length) :
    rule.matchLength (input.take length) = rule.matchLength input := by
  -- Both inputs start with the same texts of the rule, as far as these are not cut off.
  refine Nat.le_antisymm ?_ ?_
  · rcases Nat.eq_zero_or_pos (rule.matchLength (input.take length)) with hzero | hpos
    · omega
    · have hle := (declares_take hpos).length_le
        ((List.take_prefix _ _).trans (List.take_prefix _ input))
      rwa [List.length_take_of_le (matchLength_le_length _ _)] at hle
  · rcases Nat.eq_zero_or_pos (rule.matchLength input) with hzero | hpos
    · omega
    · have hle := (declares_take hpos).length_le (List.take_prefix_take_left h)
      rwa [List.length_take_of_le (matchLength_le_length _ _)] at hle

theorem mem_rules (rule : Kind) : rule ∈ rules := by
  cases rule with
  | reserved word => cases word <;> decide
  | identifier => decide
  | integer => decide

end Kind

/-! ## The lexeme at the start -/

namespace Lexeme

variable {input : List Char} {lexeme : Lexeme} {length : Nat}

/-- A lexeme that is found is a text of its rule, and is what the input starts with. -/
theorem longest?_declares (h : longest? input = some (lexeme, length)) :
    length ≤ input.length ∧ lexeme.text.toList = input.take length
      ∧ lexeme.kind.Declares lexeme.text.toList := by
  have hpos := longest?_pos h
  unfold longest? at h
  split at h
  · cases h
  · next kind length' hmatch =>
    cases h
    have hlength : length' + 1 = kind.matchLength input :=
      (Kind.longestMatch_spec hmatch hpos).2.1
    have hle : length' + 1 ≤ input.length := by
      rw [hlength]
      exact Kind.matchLength_le_length kind input
    have hdeclares : kind.Declares (input.take (length' + 1)) := by
      rw [hlength] at hpos ⊢
      exact Kind.declares_take hpos
    have htext : (kind.lexeme (input.take (length' + 1))).text.toList
        = input.take (length' + 1) := by
      cases kind with
      | reserved word => exact (show _ = _ from hdeclares).symm
      | identifier => exact String.toList_ofList
      | integer => exact String.toList_ofList
    have hkind : (kind.lexeme (input.take (length' + 1))).kind = kind := by
      cases kind <;> rfl
    refine ⟨hle, htext, ?_⟩
    rw [htext, hkind]
    exact hdeclares

/-- The same lexeme is found if the input is cut off behind it. -/
theorem longest?_take {upTo : Nat} (h : longest? input = some (lexeme, length))
    (hle : length ≤ upTo) : longest? (input.take upTo) = some (lexeme, length) := by
  have hpos := longest?_pos h
  unfold longest? at h
  split at h
  · cases h
  · next kind length' hmatch =>
    cases h
    obtain ⟨-, -, hlongest⟩ := Kind.longestMatch_spec hmatch hpos
    have hsame : Kind.longestMatch (input.take upTo) = Kind.longestMatch input :=
      Kind.longestMatch_congr fun rule =>
        Kind.matchLength_take ((hlongest rule rule.mem_rules).trans hle)
    rw [longest?_eq_some (hsame.trans hmatch) hpos, List.take_take, Nat.min_eq_left hle]

/-- No lexeme is found only if no text of a rule stands at the start. -/
theorem not_prefix_of_longest?_eq_none (h : longest? input = none) {rule : Kind}
    {text : List Char} (htext : rule.Declares text) : ¬ text <+: input := by
  intro hstarts
  unfold longest? at h
  split at h
  · next kind hmatch =>
    have hmost := (Kind.foldl_betterMatch_spec input Kind.rules (.identifier, 0)).2.1 rule
      rule.mem_rules
    change rule.matchLength input ≤ (Kind.longestMatch input).2 at hmost
    rw [hmatch] at hmost
    have hpos := htext.length_pos
    have hle := htext.length_le hstarts
    omega
  · cases h

end Lexeme

/-! ## Sources that are scanned -/

/-- A text consists of lexemes, each a text of its rule, with only blanks before and behind them. -/
inductive IsWritten : List Char → List Lexeme → Prop where
  | done : IsWritten [] []
  | blank {c : Char} {rest : List Char} {lexemes : List Lexeme} (hblank : isBlank c = true)
      (hrest : IsWritten rest lexemes) : IsWritten (c :: rest) lexemes
  | lexeme {lexeme : Lexeme} {rest : List Char} {lexemes : List Lexeme}
      (hrule : lexeme.kind.Declares lexeme.text.toList) (hrest : IsWritten rest lexemes) :
      IsWritten (lexeme.text.toList ++ rest) (lexeme :: lexemes)

theorem Scans.isWritten {input : List Char} {lexemes : List Lexeme} (h : Scans input lexemes) :
    IsWritten input lexemes := by
  induction h with
  | done => exact .done
  | blank hblank _ ih => exact .blank hblank ih
  | @lexeme c rest lexeme length lexemes _ hlexeme _ ih =>
    obtain ⟨-, htext, hrule⟩ := Lexeme.longest?_declares hlexeme
    have hwritten := IsWritten.lexeme hrule ih
    rwa [htext, List.take_append_drop] at hwritten

/-! ## Sources that are not -/

/-- The scanner stops: something is left, and neither a blank nor a text of a rule comes first. -/
structure IsStuck (rest : List Char) : Prop where
  ne_nil : rest ≠ []
  not_blank : ∀ c, rest.head? = some c → isBlank c = false
  not_declared : ∀ (rule : Kind) (text : List Char), rule.Declares text → ¬ text <+: rest

/-- How an error cuts a source: where it says, and behind the tokens it holds. -/
structure ScanError.Splits (source before : String) (error : ScanError) : Prop where
  source_eq : source = before ++ error.remainder
  offset_eq : before.utf8ByteSize = error.offset
  scan_eq : Token.scan before = .ok error.tokens
  isStuck : IsStuck error.remainder.toList

theorem isBlank.utf8Size_eq_one {c : Char} (h : isBlank c = true) : c.utf8Size = 1 := by
  rw [isBlank] at h
  simp only [Bool.or_eq_true, decide_eq_true_eq] at h
  rcases h with (((rfl | rfl) | rfl) | rfl) | rfl <;> decide

theorem utf8Len_eq_length {text : List Char} (h : ∀ c ∈ text, c.utf8Size = 1) :
    String.utf8Len text = text.length := by
  induction text with
  | nil => rfl
  | cons c rest ih =>
    rw [List.forall_mem_cons] at h
    rw [String.utf8Len_cons, ih h.2, h.1, List.length_cons]

/-- A text is cut behind a part of it after as many bytes as the part has. -/
theorem Text.splitAtByte?_append (before rest : List Char) :
    splitAtByte? (String.utf8Len before) (before ++ rest) = some (before, rest) := by
  induction before with
  | nil => rw [String.utf8Len_nil, List.nil_append, splitAtByte?]
  | cons c before ih =>
    have hpos := c.utf8Size_pos
    obtain ⟨fewer, hfewer⟩ : ∃ fewer, String.utf8Len before + c.utf8Size = fewer + 1 :=
      ⟨String.utf8Len before + c.utf8Size - 1, by omega⟩
    rw [String.utf8Len_cons, hfewer, List.cons_append, splitAtByte?, if_pos (by omega), ← hfewer,
      Nat.add_sub_cancel, ih]
    rfl

namespace Token

/-- A pass fails where it is stuck, and what it has read by then is scanned by itself. -/
theorem scanFrom_eq_error {source report : String} {offset : Nat} {position : Position}
    {found : List Token} {input : List Char}
    (h : scanFrom source offset position found input = .error report) :
    ∃ before rest lexemes, input = before ++ rest ∧ Scans before lexemes ∧ IsStuck rest
      ∧ report = stopReport source (offset + String.utf8Len before) (String.ofList rest) := by
  fun_induction scanFrom source offset position found input with
  | case1 => cases h
  | case2 offset position found c rest hblank ih =>
    obtain ⟨before, behind, lexemes, rfl, hscans, hstuck, rfl⟩ := ih h
    refine ⟨c :: before, behind, lexemes, rfl, .blank hblank hscans, hstuck, ?_⟩
    rw [String.utf8Len_cons, isBlank.utf8Size_eq_one hblank, Nat.add_assoc,
      Nat.add_comm 1 (String.utf8Len before)]
  | case3 offset position found c rest hblank hnone =>
    cases h
    refine ⟨[], c :: rest, [], rfl, .done, ⟨List.cons_ne_nil _ _, ?_, ?_⟩, rfl⟩
    · rintro other ⟨⟩
      simpa using hblank
    · exact fun rule text htext => Lexeme.not_prefix_of_longest?_eq_none hnone htext
  | case4 offset position found c rest hblank lexeme length hlexeme next ih =>
    obtain ⟨before, behind, lexemes, hrest, hscans, hstuck, rfl⟩ := ih h
    obtain ⟨hlength, htext, hrule⟩ := Lexeme.longest?_declares hlexeme
    have hpos := Lexeme.longest?_pos hlexeme
    have hinput : c :: rest = (c :: rest).take length ++ before ++ behind := by
      rw [List.append_assoc, ← hrest, List.take_append_drop]
    have hread : ((c :: rest).take length).length = length := List.length_take_of_le hlength
    -- The part that was read is the input without what is left behind it.
    have hcut : (c :: rest).take length ++ before
        = (c :: rest).take (length + before.length) := by
      conv_rhs => rw [hinput]
      rw [List.take_left' (by rw [List.length_append, hread])]
    have hscans' : Scans ((c :: rest).take length ++ before) (lexeme :: lexemes) := by
      obtain ⟨fewer, rfl⟩ : ∃ fewer, length = fewer + 1 := ⟨length - 1, by omega⟩
      have hsame := Lexeme.longest?_take hlexeme (Nat.le_add_right (fewer + 1) before.length)
      rw [← hcut] at hsame
      rw [List.take_succ_cons, List.cons_append] at hsame ⊢
      refine .lexeme (by simpa using hblank) hsame ?_
      rw [← List.cons_append, ← List.take_succ_cons, List.drop_left' hread]
      exact hscans
    refine ⟨(c :: rest).take length ++ before, behind, lexeme :: lexemes, hinput, hscans',
      hstuck, ?_⟩
    have hbytes : String.utf8Len ((c :: rest).take length) = length := by
      rw [utf8Len_eq_length, hread]
      rw [← htext]
      exact fun c hc => hrule.utf8Size_eq_one hc
    rw [String.utf8Len_append, hbytes, Nat.add_assoc]

/-! ## Reports -/

theorem afterLead?_append (lead rest : List Char) :
    afterLead? lead (lead ++ rest) = some rest := by
  rw [afterLead?, if_pos (List.isPrefixOf_iff_prefix.2 (List.prefix_append _ _)), List.drop_left]

theorem ne_semicolon_of_mem_toString {number : Nat} {c : Char}
    (hc : c ∈ (toString number).toList) : decide (c ≠ ';') = true := by
  have htext : (toString number).toList = Nat.toDigits 10 number := Nat.toList_repr
  rw [htext] at hc
  have hdigit := Nat.isDigit_of_mem_toDigits (by decide) (by decide) hc
  rw [decide_eq_true_eq]
  rintro rfl
  exact absurd hdigit (by decide)

/-- The offset is read back from the report. -/
theorem stopOffset?_stopReport {source : String} {offset : Nat} (remainder : String)
    (hoffset : offset ≤ source.utf8ByteSize)
    (hplace : (Text.splitAtByte? offset source.toList).isSome = true) :
    stopOffset? source (stopReport source offset remainder) = some offset := by
  have hreport : (stopReport source offset remainder).toList
      = "Failed to lex '".toList ++ (source.toList ++ ("' at position ".toList
        ++ ((toString offset).toList ++ ("; remaining '".toList
          ++ (remainder.toList ++ "'".toList))))) := by
    unfold stopReport
    simp only [String.toList_append, List.append_assoc]
  have hdigits : ((toString offset).toList ++ ("; remaining '".toList
      ++ (remainder.toList ++ "'".toList))).takeWhile (· ≠ ';') = (toString offset).toList := by
    have hsemicolon : "; remaining '".toList = ';' :: " remaining '".toList := by decide +kernel
    rw [List.takeWhile_append_of_pos fun c hc => ne_semicolon_of_mem_toString hc, hsemicolon,
      List.cons_append, List.takeWhile_cons_of_neg (by decide), List.append_nil]
  unfold stopOffset?
  simp only [hreport, afterLead?_append, Option.bind_eq_bind, Option.bind_some, hdigits,
    String.ofList_toList, Decimal.readUnsigned_toString hoffset, Except.toOption, hplace, if_true]

/-- A pass that fails leads to an error that cuts the source where the pass is stuck. -/
theorem failure_splits {source report : String} (h : lex source = .error report) :
    ∃ before, (failure source report).Splits source before := by
  obtain ⟨before, rest, lexemes, hsource, hscans, hstuck, rfl⟩ := scanFrom_eq_error h
  rw [← String.toList_ofList (l := before)] at hscans
  obtain ⟨tokens, hscan, -⟩ := scan_of_scans hscans
  have hoffset : stopOffset? source (stopReport source (String.utf8Len before)
      (String.ofList rest)) = some (String.utf8Len before) := by
    apply stopOffset?_stopReport
    · rw [← String.ofList_toList (s := source), hsource, String.utf8ByteSize_ofList,
        String.utf8Len_append]
      exact Nat.le_add_right _ _
    · rw [hsource, Text.splitAtByte?_append]
      rfl
  have hfailure : failure source (stopReport source (0 + String.utf8Len before)
      (String.ofList rest)) = ⟨String.utf8Len before, String.ofList rest, tokens⟩ := by
    rw [failure, Nat.zero_add, hoffset, Option.getD_some, hsource, Text.splitAtByte?_append,
      Option.getD_some]
    simp only [scan_eq_ok.1 hscan, Except.toOption, Option.getD_some]
  rw [hfailure]
  refine ⟨String.ofList before, ?_, String.utf8ByteSize_ofList before, hscan, ?_⟩
  · rw [← String.ofList_append, ← hsource, String.ofList_toList]
  · rw [String.toList_ofList]
    exact hstuck

/--
A source that is scanned consists of the lexemes found, in order, and of blanks.  Any other source
is cut in two by the error: the part before has as many bytes as the offset says and is scanned by
itself to the tokens of the error, and nothing that the scanner takes starts the remainder.
-/
theorem scan_lossless (source : String) :
    match scan source with
    | .ok tokens => IsWritten source.toList (tokens.map (·.lexeme))
    | .error error => ∃ before, error.Splits source before := by
  rcases hlex : lex source with report | tokens
  · rw [scan, hlex]
    exact failure_splits hlex
  · rw [scan, hlex]
    exact (scans_of_scan (scan_eq_ok.2 hlex)).isWritten

end Token

end WhileLang

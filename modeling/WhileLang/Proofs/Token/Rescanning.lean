import WhileLang.Proofs.Parser.Memoization
import WhileLang.Proofs.Syntax.Lexemes
import WhileLang.Proofs.Token.Lossless

/-!
# Scanning what was scanned

The texts of lexemes may be written anew with one space between any two: however they stood in the
source, they are scanned to the same lexemes.  So what a parse error says was left over is a source
of just the tokens that were left over.

Main definitions:

- Predicate {lit}`StartsBlank`: nothing or a blank comes next.
- Relation {lit}`Token.Rescans`: a text is scanned to the lexemes of some tokens.

Main results:

- Theorem {lit}`Scans.again`: a lexeme is scanned again in front of a blank.
- Theorem {lit}`Scans.spaced`: lexemes with spaces between them are scanned again.
- Theorem {lit}`StartsRetraced.remainder_eq`: what an error says was left over.
- Theorem {lit}`Token.rescans_of_scan`: any part of the tokens of a source is scanned again.
-/

namespace WhileLang

/-! ## One lexeme -/

/-- Lexemes that are scanned are texts of their rules. -/
theorem Scans.declares {input : List Char} {lexemes : List Lexeme} (h : Scans input lexemes)
    {lexeme : Lexeme} (hmem : lexeme ∈ lexemes) : lexeme.kind.Declares lexeme.text.toList := by
  obtain ⟨rest, length, hlexeme⟩ := h.exists_longest? hmem
  exact (Lexeme.longest?_declares hlexeme).2.2

/-- Nothing is left, or a blank comes first. -/
def StartsBlank (rest : List Char) : Prop :=
  ∀ c, rest.head? = some c → isBlank c = true

/-- No word goes on in front of a blank. -/
theorem StartsBlank.endsWord {rest : List Char} (h : StartsBlank rest) : EndsWord rest := by
  intro c hc
  by_contra hword
  have hblank := h c hc
  rw [not_isBlank_of_word (by simpa using hword)] at hblank
  cases hblank

/-- A lexeme that was scanned is scanned again where nothing or a blank is behind it. -/
theorem Scans.again {input rest : List Char} {lexemes others : List Lexeme}
    (h : Scans input lexemes) {lexeme : Lexeme} (hmem : lexeme ∈ lexemes)
    (hrest : Scans rest others) (hblank : StartsBlank rest) :
    Scans (lexeme.text.toList ++ rest) (lexeme :: others) := by
  cases lexeme with
  | reserved word => exact .word word hrest fun c hc => goesOn_of_isBlank (hblank c hc) word
  | identifier name => exact .name (h.isIdentifier hmem) hrest hblank.endsWord
  | integer digits =>
    have hdeclares : digits.toList ≠ [] ∧ ∀ c ∈ digits.toList, c.isDigit = true := h.declares hmem
    exact .digits (List.all_eq_true.2 hdeclares.2) hdeclares.1 hrest hblank.endsWord

/-! ## Lexemes with spaces between them -/

/-- Lexemes that were scanned are scanned again with one space between any two. -/
theorem Scans.spaced {input : List Char} {lexemes : List Lexeme} (h : Scans input lexemes)
    (part : List Lexeme) (hpart : ∀ lexeme ∈ part, lexeme ∈ lexemes) :
    Scans (" ".intercalate (part.map (·.text))).toList part := by
  induction part with
  | nil =>
    rw [List.map_nil, String.intercalate_nil, String.toList_empty]
    exact .done
  | cons first part ih =>
    rw [List.forall_mem_cons] at hpart
    have hrest := ih hpart.2
    cases part with
    | nil =>
      have hlast := h.again hpart.1 .done nofun
      rwa [List.append_nil] at hlast
    | cons second part =>
      have hspace : " ".toList = [' '] := rfl
      rw [List.map_cons, List.map_cons, String.intercalate_cons_cons, String.toList_append,
        String.toList_append, List.append_assoc, hspace]
      refine h.again hpart.1 (.blank rfl hrest) ?_
      rintro c ⟨⟩
      rfl

/-! ## What is left over -/

/-- A parse error holds the texts of the tokens from its index on, with spaces between them. -/
theorem StartsRetraced.remainder_eq {α : Type} {start : Grammar.Rules → Grammar.Production α}
    {language : Language α} (hstart : StartsRetraced start language) {tokens : List Token}
    {error : ParseError} (h : Grammar.read .stored start tokens = .error error) :
    error.remainder = some (" ".intercalate ((tokens.drop error.index).map (·.lexeme.text))) := by
  obtain ⟨trace, hstored, -⟩ := hstart.exists_whole_trace tokens (Nat.le_refl _)
  have hanswer : (trace.complete tokens.length).answer tokens = .error error :=
    hstored.run_complete.symm.trans h
  unfold Trace.answer at hanswer
  split at hanswer
  · cases hanswer
  · cases hanswer
    rfl

namespace Token

/-- A text is scanned to the lexemes of some tokens, wherever these stood. -/
def Rescans (text : String) (tokens : List Token) : Prop :=
  ∃ again, scan text = .ok again ∧ again.map (·.lexeme) = tokens.map (·.lexeme)

/-- Some tokens of a source, written with one space between any two, are scanned again. -/
theorem rescans_spaced {source : String} {tokens : List Token} (h : scan source = .ok tokens)
    {part : List Token} (hpart : part ⊆ tokens) :
    Rescans (" ".intercalate (part.map (·.lexeme.text))) part := by
  have hspaced := (scans_of_scan h).spaced (part.map (·.lexeme)) fun lexeme hmem =>
    List.map_subset _ hpart hmem
  rw [List.map_map] at hspaced
  exact scan_of_scans hspaced

/-- What a parse error says was left over is scanned to the tokens from its index on. -/
theorem rescans_remainder {source : String} {tokens : List Token} (h : scan source = .ok tokens)
    {α : Type} {start : Grammar.Rules → Grammar.Production α} {language : Language α}
    (hstart : StartsRetraced start language) {error : ParseError}
    (herror : Grammar.read .stored start tokens = .error error) :
    ∃ text, error.remainder = some text ∧ Rescans text (tokens.drop error.index) :=
  ⟨_, hstart.remainder_eq herror, rescans_spaced h (List.drop_subset _ _)⟩

/--
Any part of the tokens of a source, written with one space between any two, is scanned again: to
tokens of the same kinds with the same texts, in the same order.  In particular so is the text that
an error of a parse of these tokens says was left over, to the tokens from the index of the error
on.
-/
theorem rescans_of_scan {source : String} {tokens : List Token} (h : scan source = .ok tokens) :
    (∀ part, part <:+: tokens →
      Rescans (" ".intercalate (part.map (·.lexeme.text))) part) ∧
    (∀ error, Expr.parse tokens = .error error →
      ∃ text, error.remainder = some text ∧ Rescans text (tokens.drop error.index)) ∧
    (∀ error, Stmt.parse tokens = .error error →
      ∃ text, error.remainder = some text ∧ Rescans text (tokens.drop error.index)) ∧
    ∀ error, Program.parse tokens = .error error →
      ∃ text, error.remainder = some text ∧ Rescans text (tokens.drop error.index) :=
  ⟨fun _ hpart => rescans_spaced h hpart.subset,
    fun _ => rescans_remainder h startsRetraced_expression,
    fun _ => rescans_remainder h startsRetraced_block,
    fun _ => rescans_remainder h startsRetraced_program⟩

/-- The tokens of a source without any blank, a loop in it that lacks an operand. -/
def unspaced : List Token :=
  let token (lexeme : Lexeme) (first last : Nat) : Token :=
    ⟨lexeme, ⟨0, first⟩, ⟨0, last⟩, "a:=1;while<=b2"⟩
  [token (.identifier "a") 0 1, token (.reserved .assign) 1 3, token (.integer "1") 3 4,
    token (.reserved .semicolon) 4 5, token (.reserved .whileWord) 5 10,
    token (.reserved .lessEquals) 10 12, token (.identifier "b2") 12 14]

/-- A part of these tokens, and what is left over of them, with the blanks that the source lacks. -/
theorem rescans_of_scan_unspaced :
    scan "a:=1;while<=b2" = .ok unspaced ∧ Rescans "while <= b2" (unspaced.drop 4) ∧
      ∃ error, Stmt.parse unspaced = .error error ∧ error.remainder = some "<= b2" ∧
        Rescans "<= b2" (unspaced.drop error.index) := by
  have hscan : scan "a:=1;while<=b2" = .ok unspaced := by decide +kernel
  obtain ⟨hparts, -, hblock, -⟩ := rescans_of_scan hscan
  have herror : Stmt.parse unspaced = .error
      { text := "unexpected token",
        expected := ["identifier", "boolean", "'-'", "integer", "'('", "'!'"],
        found := some "'<='", position := some ⟨⟨0, 10⟩, ⟨0, 12⟩, "a:=1;while<=b2"⟩, index := 5,
        remainder := some "<= b2" } := by
    decide +kernel
  have hpart := hparts (unspaced.drop 4) (List.drop_suffix 4 unspaced).isInfix
  have hspaced : " ".intercalate ((unspaced.drop 4).map (·.lexeme.text)) = "while <= b2" := by
    decide +kernel
  rw [hspaced] at hpart
  obtain ⟨text, htext, hrescans⟩ := hblock _ herror
  rw [Option.some.injEq] at htext
  rw [← htext] at hrescans
  exact ⟨hscan, hpart, _, herror, rfl, hrescans⟩

end Token

end WhileLang

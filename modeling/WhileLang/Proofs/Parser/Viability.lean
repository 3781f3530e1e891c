import WhileLang.Proofs.Grammar.Follow
import WhileLang.Proofs.Parser.Failures
import WhileLang.Proofs.Token.Reserved

/-!
# Starts of phrases and what may follow them

A failure explains itself if all that was consumed before it starts a phrase, and if it expects
nothing but classes of lexemes that such a start can go on with.

Main definitions:

- Function {lit}`Lexeme.className`: the class of a lexeme, as failures expect it.
- Predicate {lit}`Lexeme.Fits`: an integer that is one with and without a sign.
- Predicate {lit}`Language.Viable`: the starts of phrases.
- Predicates {lit}`Language.Expects` and {lit}`Language.Explains`.

Main results:

- Theorem {lit}`Language.Explains.lift`: an explanation may be put into a larger phrase.
- Theorem {lit}`viable_number`: digits with or without a sign start a number.
-/

namespace WhileLang

variable {α β : Type}

/-! ## Classes of lexemes -/

/-- How failures refer to a lexeme: symbols by their quoted text, all others by their class. -/
def Lexeme.className (lexeme : Lexeme) : String :=
  match lexeme.tag with
  | .symbol => "'" ++ lexeme.text ++ "'"
  | tag => Parser.describeTag tag

/-- Names of what is not made of one lexeme. -/
def phraseNames : List String :=
  ["expression", "statement"]

/-- An integer fits if its digits make up one of 64 bits.  All other lexemes fit. -/
def Lexeme.Fits : Lexeme → Prop
  | .integer digits =>
    digits.toList.all Char.isDigit = true ∧ ∃ value, Decimal.Denotes digits value
  | _ => True

namespace Lexeme

/-- A symbol is told by its class. -/
theorem className_eq_quoted {lexeme : Lexeme} {text : String} :
    lexeme.className = "'" ++ text ++ "'" ↔ lexeme.tag = .symbol ∧ lexeme.text = text := by
  unfold className
  cases lexeme.tag <;> simp [Parser.describeTag, String.ext_iff]

/-- Lexemes that are no symbols are told by their tag. -/
theorem className_eq_describeTag {lexeme : Lexeme} {tag : Tag} (h : tag ≠ .symbol) :
    lexeme.className = Parser.describeTag tag ↔ lexeme.tag = tag := by
  unfold className
  cases lexeme.tag <;> cases tag <;> simp [Parser.describeTag, String.ext_iff] at h ⊢

theorem className_not_mem_phraseNames (lexeme : Lexeme) : lexeme.className ∉ phraseNames := by
  unfold className phraseNames
  cases lexeme.tag <;> simp [Parser.describeTag, String.ext_iff]

theorem className_ne_end (lexeme : Lexeme) : lexeme.className ≠ "end of input" := by
  unfold className
  cases lexeme.tag <;> simp [Parser.describeTag, String.ext_iff]

/-- The digits of an integer that fits make up a number. -/
theorem Fits.denotes {digits : String} (h : (integer digits).Fits) :
    ∃ value, Decimal.Denotes digits value :=
  h.2

/-- The digits of an integer that fits make up a number with a minus sign, too. -/
theorem Fits.denotes_negative {digits : String} (h : (integer digits).Fits) :
    ∃ value, Decimal.Denotes ("-" ++ digits) value := by
  obtain ⟨hdigits, value, hvalue⟩ := h
  have hmagnitude : Decimal.int64Magnitude = 9223372036854775808 := rfl
  have hupper := value.toInt_lt
  have htext : ("-" ++ digits).toList = '-' :: digits.toList := by
    rw [String.toList_append]
    rfl
  cases hvalue with
  | unsigned _ hne hvalue =>
    exact ⟨_, .negative htext hdigits hne ((Decimal.ofInt_eq_iff (by omega) (by omega)).1 rfl)⟩
  | positive hsign => simp [hsign] at hdigits
  | negative hsign => simp [hsign] at hdigits

theorem fits_zero : (integer "0").Fits :=
  ⟨rfl, 0, Decimal.readInt64_eq_ok.1 rfl⟩

end Lexeme

/-! ## Starts of phrases -/

namespace Language

/-- Some lexemes can be continued to a phrase. -/
def Viable (language : Language α) (u : List Lexeme) : Prop :=
  ∃ v value, language (u ++ v) value

theorem viable_of_phrase {language : Language α} {u : List Lexeme} {value : α}
    (h : language u value) : language.Viable u :=
  ⟨[], value, by rwa [List.append_nil]⟩

theorem viable_nil {language : Language α} {u : List Lexeme} {value : α} (h : language u value) :
    language.Viable [] :=
  ⟨u, value, h⟩

/-- What starts a start of a phrase starts a phrase. -/
theorem Viable.of_append {language : Language α} {u v : List Lexeme}
    (h : language.Viable (u ++ v)) : language.Viable u := by
  obtain ⟨w, value, hvalue⟩ := h
  exact ⟨v ++ w, value, by rwa [← List.append_assoc]⟩

theorem Viable.mono {language other : Language α} {u : List Lexeme} (h : language.Viable u)
    (hsub : ∀ u value, language u value → other u value) : other.Viable u := by
  obtain ⟨v, value, hvalue⟩ := h
  exact ⟨v, value, hsub _ _ hvalue⟩

/-- The first of two phrases may be started, if the second one can be completed. -/
theorem Viable.bind {language : Language α} {others : α → Language β} {u : List Lexeme}
    (h : language.Viable u) (hothers : ∀ value, (others value).Viable []) :
    (language.bind others).Viable u := by
  obtain ⟨v, value, hvalue⟩ := h
  obtain ⟨w, result, hresult⟩ := hothers value
  exact ⟨v ++ w, result, u ++ v, w, value, (List.append_assoc u v w).symm, hvalue, hresult⟩

/-- The second of two phrases may be started behind the first one. -/
theorem Viable.bind_behind {language : Language α} {others : α → Language β} {u v : List Lexeme}
    {value : α} (hu : language u value) (h : (others value).Viable v) :
    (language.bind others).Viable (u ++ v) := by
  obtain ⟨w, result, hresult⟩ := h
  exact ⟨w, result, u, v ++ w, value, List.append_assoc u v w, hu, hresult⟩

theorem Viable.map {language : Language α} {u : List Lexeme} (h : language.Viable u) (f : α → β) :
    (language.map f).Viable u := by
  obtain ⟨v, value, hvalue⟩ := h
  exact ⟨v, f value, value, hvalue, rfl⟩

/-! ## Explained failures -/

/-- Behind a start of a phrase an item is a name of a phrase, or any lexeme of its class goes on. -/
def Expects (language : Language α) (u : List Lexeme) (item : String) : Prop :=
  item ∈ phraseNames ∨
    (∃ lexeme : Lexeme, lexeme.Fits ∧ lexeme.className = item) ∧
      ∀ lexeme : Lexeme, lexeme.Fits → lexeme.className = item → language.Viable (u ++ [lexeme])

/-- A failure is met behind a start of a phrase, and only expects what may follow it. -/
def Explains (language : Language α) (lexemes : List Lexeme) (start : Nat) (failure : Failure) :
    Prop :=
  ∃ u rest, lexemes = u ++ rest ∧ failure.index = start + u.length ∧ language.Viable u ∧
    failure.expected.Nodup ∧ ∀ item ∈ failure.expected, language.Expects u item

/-- An explanation may be put into a larger phrase, behind lexemes that were consumed before. -/
theorem Explains.lift {inner : Language α} {outer : Language β} {u rest : List Lexeme} {start : Nat}
    {failure : Failure} (h : inner.Explains rest (start + u.length) failure)
    (hfits : ∀ lexeme ∈ rest, lexeme.Fits)
    (hviable : ∀ v, (∀ lexeme ∈ v, Lexeme.Fits lexeme) → inner.Viable v → outer.Viable (u ++ v)) :
    outer.Explains (u ++ rest) start failure := by
  obtain ⟨v, behind, rfl, hindex, hv, hnodup, hexpected⟩ := h
  have hfits : ∀ lexeme ∈ v, lexeme.Fits := fun lexeme hmem =>
    hfits lexeme (List.mem_append_left _ hmem)
  refine ⟨u ++ v, behind, (List.append_assoc u v behind).symm, ?_, hviable v hfits hv, hnodup, ?_⟩
  · rw [hindex, List.length_append, Nat.add_assoc]
  · intro item hitem
    refine (hexpected item hitem).imp_right fun ⟨hexample, hclass⟩ => ⟨hexample, ?_⟩
    intro lexeme hlexeme hname
    rw [List.append_assoc]
    refine hviable _ (fun other hother => ?_) (hclass lexeme hlexeme hname)
    rcases List.mem_append.1 hother with hother | hother
    · exact hfits other hother
    · rw [List.mem_singleton.1 hother]
      exact hlexeme

/-- A failure is explained as well by a language with more starts of phrases. -/
theorem Explains.mono {inner : Language α} {outer : Language β} {lexemes : List Lexeme}
    {start : Nat} {failure : Failure} (h : inner.Explains lexemes start failure)
    (hfits : ∀ lexeme ∈ lexemes, lexeme.Fits)
    (hviable : ∀ v, (∀ lexeme ∈ v, Lexeme.Fits lexeme) → inner.Viable v → outer.Viable v) :
    outer.Explains lexemes start failure :=
  Explains.lift (u := []) h hfits hviable

/-- A test for one class of lexemes expects that class, where it consumes nothing. -/
theorem explains_satisfying {accepts : Lexeme → Bool} {expected : String} {sample : Lexeme}
    (hclass : ∀ lexeme : Lexeme, accepts lexeme = true ↔ lexeme.className = expected)
    (hfits : sample.Fits) (hexample : accepts sample = true) (lexemes : List Lexeme)
    (start : Nat) (text : String) :
    (satisfying accepts).Explains lexemes start ⟨start, text, [expected]⟩ := by
  have hviable : ∀ lexeme, accepts lexeme = true → (satisfying accepts).Viable [lexeme] :=
    fun lexeme haccepts => viable_of_phrase ⟨lexeme, rfl, haccepts, rfl⟩
  refine ⟨[], lexemes, rfl, rfl, (hviable sample hexample).of_append (u := []), by simp, ?_⟩
  intro item hitem
  rw [List.mem_singleton.1 hitem]
  exact .inr ⟨⟨sample, hfits, (hclass sample).1 hexample⟩,
    fun lexeme _ hname => hviable lexeme ((hclass lexeme).2 hname)⟩

end Language

/-! ## Phrases can be completed -/

namespace Phrase

open WhileLang.Language (viable_nil)

theorem viable_identifier : Language.Viable Identifier [] :=
  viable_nil (.intro "")

theorem viable_arithmetic : Language.Viable Arithmetic [] :=
  viable_nil (.chain (.intro (.term (.var "")) (.stop _)))

theorem viable_logicTerm : Language.Viable LogicTerm [] :=
  viable_nil (.var "")

theorem viable_logic : Language.Viable Logic [] :=
  viable_nil (.chain (.intro (.term (.var "")) (.stop _)))

theorem viable_expression : Language.Viable Expression [] :=
  viable_arithmetic.mono fun _ _ => .arithmetic

theorem viable_block : Language.Viable Block [] := by
  obtain ⟨u, tree, h⟩ := viable_expression
  exact viable_nil (.chain (.intro (.assign "" h) (.stop _)))

theorem viable_function : Language.Viable Function [] := by
  obtain ⟨u, tree, h⟩ := viable_expression
  exact viable_nil (.intro "" .none .none h)

theorem viable_program : Language.Viable Program [] := by
  obtain ⟨u, tree, h⟩ := viable_function
  exact viable_nil (.intro (.one h))

/-- Digits with or without a sign start a number, if they are those of an integer that fits. -/
theorem viable_number {u : List Lexeme} (hfits : ∀ lexeme ∈ u, Lexeme.Fits lexeme)
    (h : ((Language.word .minus).option.seq fun u digits => u = [.integer digits]).Viable u) :
    Language.Viable Number u := by
  obtain ⟨v, _, w, _, sign, hsplit, hsign, digits, rfl, rfl⟩ := h
  cases sign with
  | none =>
    have hempty : w = [] := hsign
    subst hempty
    cases u with
    | nil =>
      obtain ⟨value, hvalue⟩ := Lexeme.fits_zero.denotes
      exact viable_nil (.unsigned hvalue)
    | cons lexeme rest =>
      injection hsplit with hlexeme hrest
      obtain ⟨rfl, -⟩ := List.append_eq_nil_iff.1 hrest
      subst hlexeme
      obtain ⟨value, hvalue⟩ := (hfits _ List.mem_cons_self).denotes
      exact Language.viable_of_phrase (.unsigned hvalue)
  | some text =>
    obtain ⟨rfl, -⟩ := hsign
    cases u with
    | nil =>
      obtain ⟨value, hvalue⟩ := Lexeme.fits_zero.denotes
      exact viable_nil (.unsigned hvalue)
    | cons lexeme rest =>
      injection hsplit with hlexeme hrest
      subst hlexeme
      cases rest with
      | nil =>
        obtain ⟨value, hvalue⟩ := Lexeme.fits_zero.denotes_negative
        exact ⟨[.integer "0"], _, .negative hvalue⟩
      | cons lexeme rest =>
        injection hrest with hlexeme hrest
        obtain ⟨rfl, -⟩ := List.append_eq_nil_iff.1 hrest
        subst hlexeme
        obtain ⟨value, hvalue⟩ := (hfits (.integer digits) (by simp)).denotes_negative
        exact Language.viable_of_phrase (.negative hvalue)

end Phrase

end WhileLang

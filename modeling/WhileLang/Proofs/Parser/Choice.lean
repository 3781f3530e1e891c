import WhileLang.Proofs.Parser.Reading

/-!
# Choice and repetition read their languages

None of these parsers takes a choice back.  What is asked of the languages makes the first choice
the right one.

Main definitions:

- Structure {lit}`Separates`: items and separators that fit together.
- Structure {lit}`ReadsPart`: a parser reads an alternative of a language.

Main results:

- Theorem {lit}`Reads.or`: the longer of two phrases is the one that can be continued.
- Theorem {lit}`Reads.optional`: what may follow is no phrase.
- Theorems {lit}`Reads.chainLeft` and {lit}`Reads.commaList`: what may follow is no separator with
  another item.
-/

namespace WhileLang

open Grammar (Production State)

/-! ## Choice -/

namespace Settles

variable {α : Type} {language other : Language α} {follow : List Lexeme → Prop}
variable {lexemes : List Lexeme} {start stop stop' : Nat} {a b : α}

/-- The left result stands unless the right one got further. -/
theorem or_left {result : Except ParseError α}
    (hleft : Settles language follow lexemes start (.ok a) stop)
    (hright : Settles other follow lexemes start result stop')
    (hcoherent : Coherent other language follow)
    (hkeep : ∀ b, result = .ok b → stop' ≤ stop) :
    Settles (language.or other) follow lexemes start (.ok a) stop where
  sound hvalue := by
    obtain ⟨u, rest, hsplit, hstop, ha⟩ := hleft.sound hvalue
    exact ⟨u, rest, hsplit, hstop, Or.inl ha⟩
  complete {v rest value} hvalue hsplit hrest := by
    cases hvalue with
    | inl hvalue => exact hleft.complete hvalue hsplit hrest
    | inr hvalue =>
      obtain ⟨hresult, hstop'⟩ := hright.complete hvalue hsplit hrest
      obtain ⟨u, behind, hsplit', hstop, ha⟩ := hleft.sound rfl
      have hlonger := hcoherent v u rest behind value a hvalue ha (hsplit.symm.trans hsplit') hrest
      have hreach := hkeep value hresult
      have hlength : u.length = v.length := by omega
      exact ⟨by rw [hlonger.2 hlength], by omega⟩

/-- The right result takes over where it got further. -/
theorem or_right {result : Except ParseError α}
    (hleft : Settles language follow lexemes start result stop)
    (hright : Settles other follow lexemes start (.ok b) stop')
    (hcoherent : Coherent language other follow)
    (hbeyond : ∀ a, result = .ok a → stop < stop') :
    Settles (language.or other) follow lexemes start (.ok b) stop' where
  sound hvalue := by
    obtain ⟨u, rest, hsplit, hstop, hb⟩ := hright.sound hvalue
    exact ⟨u, rest, hsplit, hstop, Or.inr hb⟩
  complete {u rest value} hvalue hsplit hrest := by
    cases hvalue with
    | inl hvalue =>
      obtain ⟨hresult, hstop⟩ := hleft.complete hvalue hsplit hrest
      obtain ⟨v, behind, hsplit', hstop', hb⟩ := hright.sound rfl
      have hlonger := hcoherent u v rest behind value b hvalue hb (hsplit.symm.trans hsplit') hrest
      have hreach := hbeyond value hresult
      omega
    | inr hvalue => exact hright.complete hvalue hsplit hrest

theorem or_error {error error' error'' : ParseError}
    (hleft : Settles language follow lexemes start (.error error) stop)
    (hright : Settles other follow lexemes start (.error error') stop') {stop'' : Nat} :
    Settles (language.or other) follow lexemes start (.error error'') stop'' where
  sound := nofun
  complete hvalue hsplit hrest := by
    cases hvalue with
    | inl hvalue => exact nomatch (hleft.complete hvalue hsplit hrest).1
    | inr hvalue => exact nomatch (hright.complete hvalue hsplit hrest).1

end Settles

namespace Reads

variable {α : Type} {left : Nat} {language : Language α} {follow : List Lexeme → Prop}

/-- Of two alternatives that are coherent the longer one is the right one. -/
theorem or {first second : Production α} {other : Language α}
    (hfirst : Reads left first language follow) (hsecond : Reads left second other follow)
    (hone : Coherent language other follow) (htwo : Coherent other language follow) :
    Reads left (first.or second) (language.or other) follow := by
  intro state hremembers hlength
  obtain ⟨htokens, hmiddle, hleft⟩ := hfirst state hremembers hlength
  unfold Parser.or
  rcases hparse : first state with ⟨result, middle⟩
  simp only [hparse] at htokens hmiddle hleft
  have hsame : (middle.restore state.index).lexemes = state.lexemes := by
    rw [ParseState.lexemes_eq_drop, ParseState.lexemes_eq_drop, ← htokens]
    rfl
  obtain ⟨htokens', hafter, hright⟩ := hsecond (middle.restore state.index)
    (hmiddle.of_memory rfl rfl) (by rw [hsame]; exact hlength)
  dsimp only
  rcases hparse' : second (middle.restore state.index) with ⟨result', after⟩
  simp only [hparse', hsame] at htokens' hafter hright
  have htokens : after.tokens = state.tokens := htokens'.trans htokens
  cases result with
  | ok a =>
    cases result' with
    | ok b =>
      by_cases hlt : middle.index < after.index
      · simp only [hlt, if_true]
        exact ⟨htokens, hafter, hleft.or_right hright hone fun _ _ => hlt⟩
      · simp only [hlt, if_false]
        exact ⟨htokens, hafter.of_memory rfl rfl,
          hleft.or_left hright htwo fun _ _ => Nat.not_lt.1 hlt⟩
    | error error => exact ⟨htokens, hafter.of_memory rfl rfl, hleft.or_left hright htwo nofun⟩
  | error error =>
    cases result' with
    | ok b => exact ⟨htokens, hafter, hleft.or_right hright hone nofun⟩
    | error error' => exact ⟨htokens, hafter.of_memory rfl rfl, hleft.or_error hright⟩

/-- A phrase or nothing, where what may follow is no phrase. -/
theorem optional {parser : Production α} {follow' : List Lexeme → Prop}
    (h : Reads left parser language follow) (hfollow : ∀ rest, follow' rest → follow rest)
    (hnone : ∀ u value rest, language u value → ¬ follow' (u ++ rest)) :
    Reads left (Parser.optional parser) language.option follow' := by
  intro state hremembers hlength
  obtain ⟨htokens, hafter, hsettles⟩ := h state hremembers hlength
  unfold Parser.optional
  rcases hparse : parser state with ⟨result, after⟩
  simp only [hparse] at htokens hafter hsettles
  cases result with
  | ok value =>
    refine ⟨htokens, hafter, ?_, ?_⟩
    · rintro _ ⟨⟩
      exact hsettles.sound rfl
    · intro u rest value? hvalue hsplit hrest
      cases value? with
      | some other =>
        obtain ⟨hok, hstop⟩ := hsettles.complete hvalue hsplit (hfollow rest hrest)
        exact ⟨by rw [Except.ok.inj hok], hstop⟩
      | none =>
        obtain ⟨v, behind, hsplit', _, hread⟩ := hsettles.sound rfl
        have hempty : u = [] := hvalue
        subst hempty
        rw [List.nil_append] at hsplit
        rw [← hsplit, hsplit'] at hrest
        exact absurd hrest (hnone v value behind hread)
  | error error =>
    refine ⟨htokens, hafter.of_memory rfl rfl, ?_, ?_⟩
    · rintro _ ⟨⟩
      exact ⟨[], state.lexemes, rfl, rfl, rfl⟩
    · intro u rest value? hvalue hsplit hrest
      cases value? with
      | some other => exact nomatch (hsettles.complete hvalue hsplit (hfollow rest hrest)).1
      | none =>
        have hempty : u = [] := hvalue
        subst hempty
        exact ⟨rfl, rfl⟩

/-! ## Repetition -/

end Reads

/-- How items and separators have to fit together for chains to be cut at the right places. -/
structure Separates {α : Type} (items : Language α) (separators : Language (α → α → α))
    (followItem follow : List Lexeme → Prop) : Prop where
  progress : ∀ u combine, separators u combine → 0 < u.length
  between : ∀ u rest combine, separators u combine → followItem (u ++ rest)
  last : ∀ rest, follow rest → followItem rest
  stops : ∀ u v rest combine value, separators u combine → items v value →
    ¬ follow (u ++ (v ++ rest))

/-- What comes behind an item of a chain may follow it. -/
theorem Separates.follows {α : Type} {items : Language α} {separators : Language (α → α → α)}
    {followItem follow : List Lexeme → Prop} (h : Separates items separators followItem follow)
    {folded value : α} {w rest : List Lexeme} (hw : ChainFrom items separators folded w value)
    (hrest : follow rest) : followItem (w ++ rest) := by
  cases hw with
  | stop => exact h.last rest hrest
  | round hu _ _ =>
    rw [List.append_assoc]
    exact h.between _ _ _ hu

namespace Reads

section Chains

variable {α : Type} {left : Nat} {follow : List Lexeme → Prop}

variable {item : Production α} {separator : Production (α → α → α)}
variable {items : Language α} {separators : Language (α → α → α)}
variable {followItem : List Lexeme → Prop}

/-- A round of a chain reads a separator and an item. -/
theorem round {followRound : List Lexeme → Prop}
    (hitem : Reads left item items followItem)
    (hseparator : Reads left separator separators fun _ => True)
    (hfollow : ∀ rest, followRound rest → followItem rest) (folded : α) :
    Reads left (separator.andThen fun combine => item.map (combine folded))
      (separators.bind fun combine => items.map (combine folded)) followRound := by
  refine hseparator.andThen (fun u combine _ _ => ?_) (fun _ _ _ _ _ _ => trivial)
  exact (hitem.mono (Nat.sub_le left u.length) hfollow).map _

/-- The rounds of a chain are taken one by one, and stop where one fails. -/
theorem chainFrom_succ (item : Production α) (separator : Production (α → α → α)) (rounds : Nat)
    (folded : α) (state : State) :
    Parser.chainFrom item separator (rounds + 1) folded state =
      match (separator.andThen fun combine => item.map (combine folded)) state with
      | (.ok next, after) => Parser.chainFrom item separator rounds next after
      | (.error _, after) => (.ok folded, after.restore state.index) := by
  unfold Parser.map Parser.andThen
  rw [Parser.chainFrom]
  rcases hseparator : separator state with ⟨_ | combine, middle⟩
  · simp only [hseparator]
  · rcases hitem : item middle with ⟨_ | next, after⟩ <;>
      simp only [hseparator, hitem, Parser.succeed]

theorem chainFrom (hitem : Reads left item items followItem)
    (hseparator : Reads left separator separators fun _ => True)
    (hseparates : Separates items separators followItem follow) (rounds fewer : Nat) (folded : α)
    (hrounds : fewer < rounds) (hfewer : fewer ≤ left) :
    Reads fewer (Parser.chainFrom item separator rounds folded)
      (ChainFrom items separators folded) follow := by
  induction rounds generalizing fewer folded with
  | zero => exact absurd hrounds (Nat.not_lt_zero fewer)
  | succ rounds ih =>
    intro state hremembers hlength
    have hround : Reads left (separator.andThen fun combine => item.map (combine folded)) _
        followItem := hitem.round hseparator (fun _ hrest => hrest) folded
    obtain ⟨htokens, hmiddle, hsettles⟩ :=
      hround state hremembers (Nat.le_trans hlength hfewer)
    rw [chainFrom_succ]
    rcases hparse : (separator.andThen fun combine => item.map (combine folded)) state with
      ⟨result, middle⟩
    simp only [hparse] at htokens hmiddle hsettles
    cases result with
    | error error =>
      refine ⟨htokens, hmiddle.of_memory rfl rfl, ?_, ?_⟩
      · rintro _ ⟨⟩
        exact ⟨[], state.lexemes, rfl, rfl, .stop folded⟩
      · intro w rest value hvalue hsplit hrest
        cases hvalue with
        | stop => exact ⟨rfl, rfl⟩
        | @round _ next _ combine u v w hu hv hw =>
          rw [List.append_assoc, List.append_assoc, ← List.append_assoc] at hsplit
          exact nomatch (hsettles.complete ⟨u, v, combine, rfl, hu, next, hv, rfl⟩ hsplit
            (hseparates.follows hw hrest)).1
    | ok next =>
      obtain ⟨_, behind, hsplit, hstop, u, v, combine, rfl, hu, item, hv, rfl⟩ :=
        hsettles.sound rfl
      have hlexemes : middle.lexemes = behind :=
        ParseState.lexemes_after htokens hsplit hstop
      have hprogress : 0 < (u ++ v).length := by
        rw [List.length_append]
        exact Nat.lt_of_lt_of_le (hseparates.progress u combine hu) (Nat.le_add_right _ _)
      rw [hsplit, List.length_append] at hlength
      obtain ⟨htokens', hafter, hrest⟩ := ih (fewer - (u ++ v).length) (combine folded item)
        (by omega) (by omega) middle hmiddle (by rw [hlexemes]; omega)
      rw [hlexemes, hstop] at hrest
      refine ⟨htokens'.trans htokens, hafter, ?_, ?_⟩
      · intro value hvalue
        obtain ⟨w, rest, hbehind, hend, hw⟩ := hrest.sound hvalue
        refine ⟨u ++ (v ++ w), rest, ?_, ?_, .round hu hv hw⟩
        · rw [hsplit, hbehind]
          simp only [List.append_assoc]
        · rw [hend]
          simp only [List.length_append, Nat.add_assoc]
      · intro _ rest value hvalue hwhole hfollow
        cases hvalue with
        | stop =>
          rw [List.nil_append] at hwhole
          rw [← hwhole, hsplit, List.append_assoc] at hfollow
          exact absurd hfollow (hseparates.stops u v behind combine item hu hv)
        | @round _ item' _ combine' u' v' w hu' hv' hw =>
          rw [List.append_assoc, List.append_assoc, ← List.append_assoc] at hwhole
          obtain ⟨hok, hstop'⟩ := hsettles.complete
            ⟨u', v', combine', rfl, hu', item', hv', rfl⟩ hwhole (hseparates.follows hw hfollow)
          have hsame : (u ++ v).length = (u' ++ v').length := by omega
          obtain ⟨hsame, rfl⟩ := List.append_inj (hsplit.symm.trans hwhole) hsame
          rw [← Except.ok.inj hok] at hw
          obtain ⟨hvalue, hend⟩ := hrest.complete hw rfl hfollow
          refine ⟨hvalue, ?_⟩
          rw [hend, hsame]
          simp only [List.length_append, Nat.add_assoc]

/-- A chain takes every separator that an item comes behind. -/
theorem chainLeft (hitem : Reads left item items followItem)
    (hseparator : Reads left separator separators fun _ => True)
    (hseparates : Separates items separators followItem follow) :
    Reads left (item.chainLeft separator) (Chain items separators) follow := by
  have hrest : ∀ u first, items u first → u.length ≤ left →
      Reads (left - u.length)
        (fun state =>
          Parser.chainFrom item separator (state.tokens.size - state.index + 1) first state)
        (ChainFrom items separators first) follow := by
    intro u first _ _ state hremembers hlength
    have hleft : state.lexemes.length = state.tokens.size - state.index := by
      rw [ParseState.lexemes_eq_drop, List.length_drop, List.length_map, Array.length_toList]
    have hfewer : state.lexemes.length ≤ left := Nat.le_trans hlength (Nat.sub_le left u.length)
    exact hitem.chainFrom hseparator hseparates _ state.lexemes.length first (by omega) hfewer
      state hremembers (Nat.le_refl _)
  exact (hitem.andThen hrest fun _ _ _ _ hw hfollow => hseparates.follows hw hfollow).congr
    fun _ _ => bind_chainFrom_iff

end Chains

/-! ## Lists -/

section Lists

variable {word : Reserved} {items : Language α}

theorem chainFrom_collect {folded result : List α} {value : α} {v w : List Lexeme}
    (hitem : items v value)
    (hrest : ChainFrom (items.map fun value => [value])
      ((Language.word word).map fun _ => (· ++ ·)) (folded ++ [value]) w result) :
    ChainFrom (items.map fun value => [value]) ((Language.word word).map fun _ => (· ++ ·)) folded
      (.reserved word :: (v ++ w)) result :=
  .round ⟨_, ⟨rfl, rfl⟩, rfl⟩ ⟨value, hitem, rfl⟩ hrest

/-- Behind a first item, a chain that collects items is a separated list of further ones. -/
theorem chainFrom_collect_iff {folded result : List α} {w : List Lexeme} :
    ChainFrom (items.map fun value => [value]) ((Language.word word).map fun _ => (· ++ ·)) folded w
        result ↔
      (w = [] ∧ result = folded) ∨
        ∃ v values, w = .reserved word :: v ∧ SeparatedBy word items v values ∧
          result = folded ++ values := by
  constructor
  · intro h
    induction h with
    | stop folded => exact Or.inl ⟨rfl, rfl⟩
    | round hseparator hitem _ ih =>
      obtain ⟨_, ⟨rfl, _⟩, rfl⟩ := hseparator
      obtain ⟨value, hitem, rfl⟩ := hitem
      right
      rcases ih with ⟨rfl, rfl⟩ | ⟨v, values, rfl, hvalues, rfl⟩
      · exact ⟨_, [value], by rw [List.append_nil]; rfl, .one hitem, rfl⟩
      · exact ⟨_, value :: values, rfl, .cons hitem hvalues, List.append_assoc _ _ _⟩
  · rintro (⟨rfl, rfl⟩ | ⟨v, values, rfl, hvalues, rfl⟩)
    · exact .stop _
    · induction hvalues generalizing folded with
      | @one v value hitem =>
        rw [← List.append_nil v]
        exact chainFrom_collect hitem (.stop _)
      | @cons v _ value values hitem _ ih =>
        have hrest := @ih (folded ++ [value])
        rw [List.append_assoc] at hrest
        exact chainFrom_collect hitem hrest

theorem chain_collect_iff {u : List Lexeme} {values : List α} :
    Chain (items.map fun value => [value]) ((Language.word word).map fun _ => (· ++ ·)) u values ↔
      SeparatedBy word items u values := by
  constructor
  · rintro ⟨⟨value, hitem, rfl⟩, hrest⟩
    rcases chainFrom_collect_iff.1 hrest with ⟨rfl, rfl⟩ | ⟨v, values, rfl, hvalues, rfl⟩
    · rw [List.append_nil]
      exact .one hitem
    · exact .cons hitem hvalues
  · intro h
    cases h with
    | one hitem =>
      rw [← List.append_nil u]
      exact .intro ⟨_, hitem, rfl⟩ (.stop _)
    | cons hitem hrest =>
      exact .intro ⟨_, hitem, rfl⟩ (chainFrom_collect_iff.2 (.inr ⟨_, _, rfl, hrest, rfl⟩))

variable {item : Production α} {followItem : List Lexeme → Prop}

/-- Items with a symbol between them, where the symbol with another item may not follow. -/
theorem separated (hitem : Reads left item items followItem) (word : Reserved)
    (hword : (Lexeme.reserved word).tag = .symbol)
    (hbetween : ∀ rest, followItem (.reserved word :: rest))
    (hlast : ∀ rest, follow rest → followItem rest)
    (hstops : ∀ v rest value, items v value → ¬ follow (.reserved word :: (v ++ rest))) :
    Reads left (Parser.separated item word.text) (SeparatedBy word items) follow := by
  have hseparates : Separates (items.map fun value => [value])
      ((Language.word word).map fun _ => (· ++ ·)) followItem follow := by
    refine ⟨?_, ?_, hlast, ?_⟩
    · rintro _ _ ⟨_, ⟨rfl, _⟩, _⟩
      exact Nat.one_pos
    · rintro _ rest _ ⟨_, ⟨rfl, _⟩, _⟩
      exact hbetween rest
    · rintro _ v rest _ _ ⟨_, ⟨rfl, _⟩, _⟩ ⟨value, hvalue, _⟩
      exact hstops v rest value hvalue
  exact ((hitem.map _).chainLeft ((Reads.word word hword).map _) hseparates).congr
    fun _ _ => chain_collect_iff

/-- Items with commas between them in front of a closing parenthesis. -/
theorem commaList {starts : Lexeme → Bool} (hitem : Reads left item items followItem)
    (hcomma : ∀ rest, followItem (.reserved .comma :: rest))
    (hparen : ∀ rest, followItem (.reserved .rightParen :: rest)) (hitems : items.StartsWith starts)
    (hstarts : starts (.reserved .rightParen) = false) :
    Reads left (Grammar.commaList item) (CommaList items) (NextIs .rightParen) := by
  have hseparated : Reads left (Parser.separated item ",") (SeparatedBy .comma items)
      (NextIs .rightParen) := by
    refine hitem.separated .comma rfl hcomma ?_ ?_
    · rintro _ ⟨rest, rfl⟩
      exact hparen rest
    · rintro v rest value _ ⟨other, heq⟩
      cases heq
  refine ((hseparated.optional (fun _ hrest => hrest) ?_).map _).congr fun _ _ => map_option_iff
  rintro u values rest hvalues ⟨other, heq⟩
  obtain ⟨lexeme, v, rfl, hlexeme⟩ := hitems.separatedBy .comma u values hvalues
  injection heq with heq _
  subst heq
  exact absurd hlexeme (by simp [hstarts])

end Lists

end Reads

/-! ## Alternatives -/

/-- A parser reads an alternative of a language. -/
structure ReadsPart {α : Type} (left : Nat) (parser : Production α) (language whole : Language α)
    (follow : List Lexeme → Prop) : Prop where
  reads : Reads left parser language follow
  part : ∀ u value, language u value → whole u value

namespace ReadsPart

variable {α : Type} {left : Nat} {follow : List Lexeme → Prop} {parser other : Production α}
variable {language language' whole : Language α}

/-- Alternatives of a language that is coherent can be put together. -/
theorem or (hfirst : ReadsPart left parser language whole follow)
    (hcoherent : Coherent whole whole follow)
    (hsecond : ReadsPart left other language' whole follow) :
    ReadsPart left (parser.or other) (language.or language') whole follow where
  reads := hfirst.reads.or hsecond.reads
    (hcoherent.mono hfirst.part hsecond.part fun _ hrest => hrest)
    (hcoherent.mono hsecond.part hfirst.part fun _ hrest => hrest)
  part u value hu := hu.elim (hfirst.part u value) (hsecond.part u value)

/-- The alternatives are complete. -/
theorem covers (h : ReadsPart left parser language whole follow)
    (hback : ∀ u value, whole u value → language u value) : Reads left parser whole follow :=
  h.reads.congr fun u value => ⟨h.part u value, hback u value⟩

/-- A symbol that stands for a value. -/
theorem symbol (word : Reserved) {value : α} (hvalue : whole [.reserved word] value)
    (hword : (Lexeme.reserved word).tag = .symbol) :
    ReadsPart left ((Parser.literal word.text).map fun _ => value)
      (fun u other => u = [.reserved word] ∧ other = value) whole follow := by
  refine ⟨((Reads.word word hword).map _).congr fun u other => ?_, ?_⟩
  · constructor
    · rintro ⟨_, ⟨rfl, _⟩, rfl⟩
      exact ⟨rfl, rfl⟩
    · rintro ⟨rfl, rfl⟩
      exact ⟨_, ⟨rfl, rfl⟩, rfl⟩
  · rintro _ _ ⟨rfl, rfl⟩
    exact hvalue

end ReadsPart

end WhileLang

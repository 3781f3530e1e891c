import WhileLang.Proofs.Parser.Expressions
import WhileLang.Proofs.Parser.Traces
import WhileLang.Proofs.Parser.Viability

/-!
# Traces that account for what they do

A trace accounts for itself by a language: what it yields is spelled by what was consumed, and every
failure on the way is met behind the start of a phrase and expects only what may follow there.

Main definitions:

- Structure {lit}`Trace.Accounts`.

Main results:

- Theorems {lit}`Trace.Accounts.andThen_ok`, {lit}`Trace.Accounts.or`,
  {lit}`Trace.Accounts.optional`, {lit}`Trace.Accounts.label` and {lit}`Trace.Accounts.number`: the
  traces of combinators account for themselves if those of their parts do.
-/

namespace WhileLang

variable {α β : Type}

/-- A trace on some lexemes is right by a language. -/
structure Trace.Accounts (trace : Trace α) (language : Language α) (lexemes : List Lexeme)
    (start : Nat) : Prop where
  sound {value : α} : trace.result = .ok value →
    ∃ u rest, lexemes = u ++ rest ∧ trace.stop = start + u.length ∧ language u value
  /-- Failures are explained, unless there are integers that do not fit. -/
  explains : (∀ lexeme ∈ lexemes, lexeme.Fits) →
    ∀ failure ∈ trace.failures, language.Explains lexemes start failure

namespace Trace.Accounts

variable {trace : Trace α} {language : Language α} {lexemes : List Lexeme} {start : Nat}

theorem mono {other : Language α} (h : trace.Accounts language lexemes start)
    (hsub : ∀ u value, language u value → other u value) :
    trace.Accounts other lexemes start where
  sound hok := by
    obtain ⟨u, rest, hsplit, hstop, hvalue⟩ := h.sound hok
    exact ⟨u, rest, hsplit, hstop, hsub u _ hvalue⟩
  explains hfits failure hmem :=
    (h.explains hfits failure hmem).mono hfits fun _ _ hviable => hviable.mono hsub

theorem succeed (value : α) (lexemes : List Lexeme) (start : Nat) :
    (Trace.succeed value start).Accounts (.pure value) lexemes start where
  sound hok := by
    cases hok
    exact ⟨[], lexemes, rfl, rfl, rfl, rfl⟩
  explains _ := nofun

/-- One more failure that is explained. -/
theorem reject (h : trace.Accounts language lexemes start) {failure : Failure} (stop : Nat)
    (hfailure : (∀ lexeme ∈ lexemes, Lexeme.Fits lexeme) →
      language.Explains lexemes start failure) :
    (trace.reject failure stop).Accounts language lexemes start where
  sound := nofun
  explains hfits other hmem := by
    rcases List.mem_append.1 hmem with hmem | hmem
    · exact h.explains hfits other hmem
    · rw [List.mem_singleton.1 hmem]
      exact hfailure hfits

/-! ## Sequences -/

section Sequences

variable {others : α → Language β}

theorem andThen_error (h : trace.Accounts language lexemes start)
    (hothers : ∀ value, (others value).Viable []) (failure : Failure) :
    (⟨.error failure, trace.stop, trace.failures⟩ : Trace β).Accounts (language.bind others)
      lexemes start where
  sound := nofun
  explains hfits other hmem :=
    (h.explains hfits other hmem).mono hfits fun _ _ hviable => hviable.bind hothers

theorem andThen_ok {second : Trace β} {u rest : List Lexeme} {value : α}
    (h : trace.Accounts language (u ++ rest) start) (hothers : ∀ value, (others value).Viable [])
    (hu : language u value) (h' : second.Accounts (others value) rest (start + u.length)) :
    (second.after trace.failures).Accounts (language.bind others) (u ++ rest) start where
  sound hok := by
    obtain ⟨v, behind, rfl, hstop, hresult⟩ := h'.sound hok
    refine ⟨u ++ v, behind, (List.append_assoc u v behind).symm, ?_, u, v, value, rfl, hu, hresult⟩
    rw [List.length_append, ← Nat.add_assoc]
    exact hstop
  explains hfits failure hmem := by
    have hbehind : ∀ lexeme ∈ rest, lexeme.Fits := fun lexeme hmem =>
      hfits lexeme (List.mem_append_right _ hmem)
    rcases List.mem_append.1 hmem with hmem | hmem
    · exact (h.explains hfits failure hmem).mono hfits fun _ _ hviable => hviable.bind hothers
    · exact (h'.explains hbehind failure hmem).lift hbehind fun _ _ hviable =>
        .bind_behind hu hviable

end Sequences

/-! ## Choice -/

/-- What is chosen from two alternatives is the result of one of them. -/
theorem choice_eq_ok {left right : Trace α} {value : α}
    (h : (left.choice right start).1 = .ok value) :
    (left.result = .ok value ∧ (left.choice right start).2 = left.stop) ∨
      (right.result = .ok value ∧ (left.choice right start).2 = right.stop) := by
  unfold choice at h ⊢
  cases hleft : left.result with
  | ok a =>
    cases hright : right.result with
    | ok b =>
      simp only [hleft, hright] at h ⊢
      split at h
      · next hlt => exact .inr ⟨h, by rw [if_pos hlt]⟩
      · next hlt => exact .inl ⟨h, by rw [if_neg hlt]⟩
    | error f =>
      simp only [hleft, hright] at h
      exact .inl ⟨h, rfl⟩
  | error e =>
    cases hright : right.result with
    | ok b =>
      simp only [hleft, hright] at h
      exact .inr ⟨h, rfl⟩
    | error f =>
      simp only [hleft, hright] at h
      cases h

theorem or {other : Trace α} (h : trace.Accounts language lexemes start)
    (h' : other.Accounts language lexemes start) :
    (trace.or other start).Accounts language lexemes start where
  sound hok := by
    rcases choice_eq_ok hok with ⟨hresult, hstop⟩ | ⟨hresult, hstop⟩
    · obtain ⟨u, rest, hsplit, hlength, hvalue⟩ := h.sound hresult
      exact ⟨u, rest, hsplit, hstop.trans hlength, hvalue⟩
    · obtain ⟨u, rest, hsplit, hlength, hvalue⟩ := h'.sound hresult
      exact ⟨u, rest, hsplit, hstop.trans hlength, hvalue⟩
  explains hfits failure hmem :=
    (List.mem_append.1 hmem).elim (h.explains hfits failure) (h'.explains hfits failure)

theorem optional (h : trace.Accounts language lexemes start) :
    (trace.optional start).Accounts language.option lexemes start := by
  have hexplains : (∀ lexeme ∈ lexemes, Lexeme.Fits lexeme) → ∀ failure ∈ trace.failures,
      language.option.Explains lexemes start failure := fun hfits failure hmem =>
    (h.explains hfits failure hmem).mono hfits fun _ _ ⟨v, value, hvalue⟩ =>
      ⟨v, some value, hvalue⟩
  unfold Trace.optional
  cases hresult : trace.result with
  | ok value =>
    refine ⟨?_, hexplains⟩
    rintro _ ⟨⟩
    exact h.sound hresult
  | error failure =>
    refine ⟨?_, hexplains⟩
    rintro _ ⟨⟩
    exact ⟨[], lexemes, rfl, rfl, rfl⟩

theorem label (h : trace.Accounts language lexemes start) {name : String}
    (hname : name ∈ phraseNames) (hviable : language.Viable []) :
    (trace.label start name).Accounts language lexemes start := by
  unfold Trace.label
  cases hresult : trace.result with
  | ok value => exact h
  | error failure =>
    dsimp only
    split
    · next hstart =>
      refine h.reject trace.stop fun _ => ⟨[], lexemes, rfl, hstart, hviable, by simp, ?_⟩
      intro item hitem
      rw [List.mem_singleton.1 hitem]
      exact .inl hname
    · exact h

/-! ## Single lexemes -/

theorem satisfy {accepts : Lexeme → Bool} {expected : String} {sample : Lexeme}
    {token? : Option Token}
    (hclass : ∀ lexeme : Lexeme, accepts lexeme = true ↔ lexeme.className = expected)
    (hfits : sample.Fits) (hsample : accepts sample = true)
    (htoken : token?.map (·.lexeme) = lexemes.head?) :
    (Trace.satisfy accepts expected token? start).Accounts (.satisfying accepts) lexemes start := by
  unfold Trace.satisfy
  cases hfilter : token?.filter (accepts ·.lexeme) with
  | none =>
    refine ⟨nofun, fun _ failure hmem => ?_⟩
    rw [List.mem_singleton.1 hmem]
    exact Language.explains_satisfying hclass hfits hsample lexemes start _
  | some token =>
    refine ⟨?_, fun _ => nofun⟩
    rintro _ ⟨⟩
    obtain ⟨rfl, haccepts⟩ := Option.filter_eq_some_iff.1 hfilter
    obtain ⟨rest, hsplit⟩ := List.head?_eq_some_iff.1 htoken.symm
    exact ⟨[token.lexeme], rest, hsplit, rfl, token.lexeme, rfl, haccepts, rfl⟩

/-- A number is read where its sign and digits are, unless they do not fit. -/
theorem number {trace : Trace (Option String × String)}
    (h : trace.Accounts
      ((Language.word .minus).option.seq fun u digits => u = [.integer digits]) lexemes start) :
    (trace.number start).Accounts Phrase.Number lexemes start := by
  have hexplains : (∀ lexeme ∈ lexemes, Lexeme.Fits lexeme) → ∀ failure ∈ trace.failures,
      Language.Explains Phrase.Number lexemes start failure := fun hfits failure hmem =>
    (h.explains hfits failure hmem).mono hfits fun _ => Phrase.viable_number
  unfold Trace.number
  cases hresult : trace.result with
  | error failure => exact ⟨nofun, hexplains⟩
  | ok pair =>
    obtain ⟨u, rest, rfl, hstop, hpair⟩ := h.sound hresult
    dsimp only
    cases hread : Decimal.readInt64 (pair.1.getD "" ++ pair.2) with
    | ok value =>
      refine ⟨?_, hexplains⟩
      rintro _ ⟨⟩
      exact ⟨u, rest, rfl, hstop, Reads.number_iff.2 ⟨pair, hpair, value, hread, rfl⟩⟩
    | error fault =>
      refine ⟨nofun, fun hfits => ?_⟩
      -- The sign and the digits of an integer that fits are in range.
      obtain ⟨_, _, sign, rfl, hsign, digits, rfl, rfl⟩ := hpair
      have hdigits : (Lexeme.integer digits).Fits := hfits _ (by simp)
      have hvalue : ∃ value, Decimal.Denotes (sign.getD "" ++ digits) value := by
        cases sign with
        | none =>
          rw [Option.getD_none, String.empty_append]
          exact hdigits.denotes
        | some text =>
          rw [Option.getD_some, hsign.2]
          exact hdigits.denotes_negative
      obtain ⟨value, hvalue⟩ := hvalue
      rw [Decimal.readInt64_eq_ok.2 hvalue] at hread
      cases hread

/-! ## Chains -/

section Chains

variable {items : Language α} {separators : Language (α → α → α)} {folded : α}

/-- A round with the rounds behind it. -/
theorem chainFrom_of_round {next result : α} {v w : List Lexeme}
    (h : (separators.bind fun combine => items.map (combine folded)) v next)
    (hrest : ChainFrom items separators next w result) :
    ChainFrom items separators folded (v ++ w) result := by
  obtain ⟨x, y, combine, rfl, hx, item, hy, rfl⟩ := h
  rw [List.append_assoc]
  exact .round hx hy hrest

/-- A chain may end where a round fails. -/
theorem chainFrom_stop
    (h : trace.Accounts (separators.bind fun combine => items.map (combine folded)) lexemes start) :
    (⟨.ok folded, start, trace.failures⟩ : Trace α).Accounts (ChainFrom items separators folded)
      lexemes start where
  sound hok := by
    cases hok
    exact ⟨[], lexemes, rfl, rfl, .stop folded⟩
  explains hfits failure hmem := by
    refine (h.explains hfits failure hmem).mono hfits fun v _ hviable => hviable.mono ?_
    intro u next hround
    rw [← List.append_nil u]
    exact chainFrom_of_round hround (.stop next)

theorem chainFrom_round {rest : Trace α} {u behind : List Lexeme} {next : α}
    (h : trace.Accounts (separators.bind fun combine => items.map (combine folded)) (u ++ behind)
      start)
    (hu : (separators.bind fun combine => items.map (combine folded)) u next)
    (h' : rest.Accounts (ChainFrom items separators next) behind (start + u.length)) :
    (rest.after trace.failures).Accounts (ChainFrom items separators folded) (u ++ behind)
      start := by
  refine (h.andThen_ok (fun value => Language.viable_nil (.stop value)) hu h').mono ?_
  rintro _ result ⟨v, w, next, rfl, hround, hrest⟩
  exact chainFrom_of_round hround hrest

end Chains

end Trace.Accounts

end WhileLang

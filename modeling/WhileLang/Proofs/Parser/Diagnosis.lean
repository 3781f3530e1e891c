import WhileLang.Proofs.Parser.Memoization

/-!
# Errors pinpoint what is wrong

An error is reported at the end of the longest start of a phrase among the tokens, and it expects
all classes of lexemes that such a start can go on with, and no others.

Nothing in the parser computes what may follow.  That all classes are expected is seen by comparing
runs.  The tokens up to the error are read once, and the same run is part of every run on more
tokens behind them, unless it notices the first of these.  Where a phrase goes on with a lexeme, the
run has to notice it; where the tokens go on with one that fits nowhere, it does not.

Main definitions:

- Structure {lit}`ParseError.Pinpoints`: what an error says about tokens that are no phrase.
- Structure {lit}`Frontier`: where the longest start of a phrase ends.
- Predicate {lit}`ParseError.Tracks`: an error that has met an item there.

Main results:

- Theorem {lit}`Frontier.reports`: what is reported of a whole run is met at the frontier.
- Theorem {lit}`StartsRetraced.pinpoints`: an error of a whole run pinpoints what is wrong.
- Theorem {lit}`parse_error_pinpoints`: so do all errors of the parser.
-/

namespace WhileLang

open Grammar (Production Rules State)

variable {α : Type}

/-! ## Exact errors -/

/-- An error says how far some tokens start a phrase, and with what they could go on there. -/
structure ParseError.Pinpoints (error : ParseError) (language : Language α) (tokens : List Token) :
    Prop where
  index_le : error.index ≤ tokens.length
  /-- The tokens before the error start a phrase. -/
  viable : language.Viable ((tokens.take error.index).map (·.lexeme))
  /-- With the token at the error, if there is one, they do not. -/
  stuck : error.index < tokens.length →
    ¬ language.Viable ((tokens.take (error.index + 1)).map (·.lexeme))
  nodup : error.expected.Nodup
  /-- Apart from names of phrases, just the classes are expected that a phrase may go on with. -/
  classes {item : String} : item ∉ phraseNames → item ≠ "end of input" →
    (item ∈ error.expected ↔ ∃ lexeme : Lexeme, lexeme.className = item ∧
      language.Viable ((tokens.take error.index).map (·.lexeme) ++ [lexeme]))
  /-- The end is expected just where the tokens before the error are a phrase. -/
  ending : "end of input" ∈ error.expected ↔
    ∃ value, language ((tokens.take error.index).map (·.lexeme)) value
  found : error.found = some (tokens[error.index]?.elim "end of input" (·.lexeme.describe))
  position : error.position = tokens[error.index]?.map (·.span)
  remainder : error.remainder =
    some (" ".intercalate ((tokens.drop error.index).map (·.lexeme.text)))

/-- What an error calls the lexeme that comes next, or the end. -/
def nextName : List Lexeme → String
  | [] => "end of input"
  | lexeme :: _ => lexeme.className

/-! ## Answers and failures -/

namespace Trace

variable {trace : Trace α} {tokens : List Token}

/-- A whole run succeeds where everything was consumed. -/
theorem complete_answer_eq_ok {value : α} :
    (trace.complete tokens.length).answer tokens = .ok value ↔
      trace.result = .ok value ∧ tokens.length ≤ trace.stop := by
  unfold complete
  cases hresult : trace.result with
  | error failure => simp [answer, hresult]
  | ok other =>
    dsimp only
    split
    · next hlt => simp [answer, reject, Nat.not_le.2 hlt]
    · next hle => simp [answer, hresult, Nat.not_lt.1 hle]

/-- An error of a whole run is the furthest of its failures, with the text left over from there. -/
theorem answer_eq_error {error : ParseError} (hfailures : trace.failures ≠ [])
    (h : trace.answer tokens = .error error) :
    ∃ furthest, IsFurthest (trace.failures.map (·.report tokens.toArray)) furthest ∧
      error = { furthest with
        remainder :=
          some (" ".intercalate ((tokens.drop furthest.index).map (·.lexeme.text))) } := by
  have hreports : trace.failures.map (·.report tokens.toArray) ≠ [] :=
    fun hnil => hfailures (List.map_eq_nil_iff.1 hnil)
  obtain ⟨furthest, heq, hfurthest⟩ := isFurthest_furthestOf hreports
  refine ⟨furthest, hfurthest, ?_⟩
  unfold answer at h
  cases hresult : trace.result with
  | ok value => simp [hresult] at h
  | error failure =>
    simp only [hresult, heq, Option.getD_some, Except.error.injEq] at h
    exact h.symm

/-- Two traces of one run expect the same at the greatest index of a failure. -/
theorem Describes.exists_failure {trace' : Trace α} {outcome : Except ParseError α × State}
    (h : trace.Describes (.start tokens) outcome) (h' : trace'.Describes (.start tokens) outcome)
    {failure : Failure} (hmem : failure ∈ trace'.failures) {item : String}
    (hitem : item ∈ failure.expected)
    (hlast : ∀ other ∈ trace.failures, other.index ≤ failure.index) :
    ∃ other ∈ trace.failures, other.index = failure.index ∧ item ∈ other.expected := by
  have hsame : furthestOf none (trace.failures.map (·.report tokens.toArray))
      = furthestOf none (trace'.failures.map (·.report tokens.toArray)) :=
    h.furthest.symm.trans h'.furthest
  have hreport : failure.report tokens.toArray ∈
      trace'.failures.map (·.report tokens.toArray) := List.mem_map_of_mem hmem
  obtain ⟨furthest, heq, habsorbs⟩ := absorbs_furthestOf none hreport
  rw [← hsame] at heq
  have hreports : trace.failures.map (·.report tokens.toArray) ≠ [] := by
    intro hnil
    rw [hnil] at heq
    cases heq
  obtain ⟨furthest', heq', hfurthest⟩ := isFurthest_furthestOf hreports
  obtain rfl : furthest = furthest' := Option.some.inj (heq.symm.trans heq')
  obtain ⟨_, hreported, hfurthestOrigin⟩ := hfurthest.origin
  obtain ⟨origin, horigin, rfl⟩ := List.mem_map.1 hreported
  have hindex : furthest.index = origin.index := by
    rw [hfurthestOrigin]
    rfl
  have hle := hlast origin horigin
  rcases habsorbs with hlt | ⟨heq, hsubset⟩
  · rw [hindex] at hlt
    exact absurd hlt (Nat.not_lt.2 hle)
  · obtain ⟨_, hreported, hplace, hexpected⟩ := hfurthest.expected item (hsubset hitem)
    obtain ⟨other, hother, rfl⟩ := List.mem_map.1 hreported
    exact ⟨other, hother, hplace.trans heq.symm, hexpected⟩

/-- Besides the failures before there is at most the one for input that is left over. -/
theorem mem_failures_complete {size : Nat} {failure : Failure} :
    failure ∈ (trace.complete size).failures ↔ failure ∈ trace.failures ∨
      ∃ value, trace.result = .ok value ∧ trace.stop < size ∧
        failure = ⟨trace.stop, "unconsumed input", ["end of input"]⟩ := by
  unfold complete
  cases hresult : trace.result with
  | error other => simp
  | ok value =>
    dsimp only
    split
    · next hlt => simp [reject, hlt]
    · next hle => simp [hle]

section

variable {language : Language α} {failure : Failure}

/-- No failure is met behind the tokens, and those at their end expect what may come there. -/
theorem Accounts.explains_end (h : trace.Accounts language (tokens.map (·.lexeme)) 0)
    (hfits : ∀ token ∈ tokens, token.lexeme.Fits) (hmem : failure ∈ trace.failures) :
    failure.index ≤ tokens.length ∧ failure.expected.Nodup ∧
      (failure.index = tokens.length →
        ∀ item ∈ failure.expected, language.Expects (tokens.map (·.lexeme)) item) := by
  obtain ⟨u, rest, hsplit, hindex, -, hnodup, hexpected⟩ :=
    h.explains (List.forall_mem_map.2 hfits) failure hmem
  have hstarts : u <+: tokens.map (·.lexeme) := ⟨rest, hsplit.symm⟩
  have hlength : (tokens.map (·.lexeme)).length = tokens.length := List.length_map _
  rw [Nat.zero_add] at hindex
  rw [hindex, ← hlength]
  refine ⟨hstarts.length_le, hnodup, fun hsame => ?_⟩
  rw [← hstarts.eq_of_length hsame]
  exact hexpected

/-- What was consumed up to the end of the tokens is all of them. -/
theorem Accounts.sound_end (h : trace.Accounts language (tokens.map (·.lexeme)) 0) {value : α}
    (hok : trace.result = .ok value) :
    trace.stop ≤ tokens.length ∧
      (trace.stop = tokens.length → language (tokens.map (·.lexeme)) value) := by
  obtain ⟨u, rest, hsplit, hstop, hvalue⟩ := h.sound hok
  have hstarts : u <+: tokens.map (·.lexeme) := ⟨rest, hsplit.symm⟩
  have hlength : (tokens.map (·.lexeme)).length = tokens.length := List.length_map _
  rw [Nat.zero_add] at hstop
  rw [hstop, ← hlength]
  refine ⟨hstarts.length_le, fun hsame => ?_⟩
  rw [← hstarts.eq_of_length hsame]
  exact hvalue

/-- The failures of a whole run at the end of some tokens expect what may come there. -/
theorem Accounts.complete_end (h : trace.Accounts language (tokens.map (·.lexeme)) 0)
    (hfits : ∀ token ∈ tokens, token.lexeme.Fits) {size : Nat}
    (hmem : failure ∈ (trace.complete size).failures) :
    failure.index ≤ tokens.length ∧ failure.expected.Nodup ∧
      (failure.index = tokens.length → ∀ item ∈ failure.expected, item ∈ phraseNames ∨
        ∃ w value, language (tokens.map (·.lexeme) ++ w) value ∧ nextName w = item) := by
  rcases mem_failures_complete.1 hmem with hmem | ⟨value, hok, -, rfl⟩
  · obtain ⟨hindex, hnodup, hexpected⟩ := h.explains_end hfits hmem
    refine ⟨hindex, hnodup, fun hsame item hitem => (hexpected hsame item hitem).imp_right ?_⟩
    rintro ⟨⟨lexeme, hlexeme, hname⟩, hclass⟩
    obtain ⟨v, value, hvalue⟩ := hclass lexeme hlexeme hname
    rw [List.append_assoc] at hvalue
    exact ⟨_, value, hvalue, hname⟩
  · obtain ⟨hindex, hvalue⟩ := h.sound_end hok
    refine ⟨hindex, by simp, fun hsame item hitem => .inr ⟨[], value, ?_, ?_⟩⟩
    · rw [List.append_nil]
      exact hvalue hsame
    · rw [List.mem_singleton.1 hitem, nextName]

end

end Trace

/-! ## The longest start of a phrase -/

/-- Some tokens start a phrase, but not together with the first one behind them. -/
structure Frontier (language : Language α) (tokens rest : List Token) : Prop where
  viable : language.Viable (tokens.map (·.lexeme))
  stuck {token : Token} : rest.head? = some token →
    ¬ language.Viable (tokens.map (·.lexeme) ++ [token.lexeme])

theorem exists_frontier {language : Language α} (tokens rest : List Token)
    (hviable : language.Viable (tokens.map (·.lexeme))) :
    ∃ front back, tokens ++ rest = front ++ back ∧ Frontier language front back := by
  induction rest generalizing tokens with
  | nil => exact ⟨tokens, [], rfl, hviable, nofun⟩
  | cons token rest ih =>
    by_cases hnext : language.Viable (tokens.map (·.lexeme) ++ [token.lexeme])
    · have hlonger : language.Viable ((tokens ++ [token]).map (·.lexeme)) := by
        rwa [List.map_append]
      obtain ⟨front, back, hsplit, hfrontier⟩ := ih (tokens ++ [token]) hlonger
      exact ⟨front, back, by rw [← hsplit, List.append_assoc]; rfl, hfrontier⟩
    · refine ⟨tokens, token :: rest, rfl, hviable, ?_⟩
      rintro _ ⟨⟩
      exact hnext

/-! ## Whole runs up to a frontier -/

section

variable {start : Rules → Production α} {language : Language α} {tokens rest : List Token}

/-- A trace of runs without storing has the answer. -/
theorem StartsRetraced.read_eq_answer (hstart : StartsRetraced start language) {trace : Trace α}
    (h : ∀ deep : Deep (Grammar.depthFor tokens),
      HasTrace tokens.toArray 0 (start (rerun deep)) trace) :
    Grammar.read .stored start tokens = (trace.complete tokens.length).answer tokens :=
  (hstart.read_eq_rerun tokens 0).trans
    (h ⟨Grammar.depthFor tokens, Nat.le_refl _⟩ (.start tokens) rfl rfl).run_complete

/-- A run to a greater depth has the same answer. -/
theorem StartsRetraced.run_deep (hstart : StartsRetraced start language) {depth : Nat}
    (hdepth : Grammar.depthFor tokens ≤ depth) :
    (start (Grammar.rules .stored depth)).complete.run tokens
      = Grammar.read .stored start tokens := by
  obtain ⟨trace, hstored, hrerun⟩ := hstart.exists_whole_trace tokens hdepth
  exact hstored.run_complete.trans (hstart.read_eq_answer hrerun).symm

/-- Where the tokens are a phrase, a run reads all of them. -/
theorem StartsRetraced.reads_all (hstart : StartsRetraced start language)
    (hexact : ParsesExactly (Grammar.read .stored start) language) {depth : Nat}
    (hdepth : Grammar.depthFor tokens ≤ depth) {trace : Trace α}
    (hdescribes :
      trace.Describes (.start tokens) (start (Grammar.rules .stored depth) (.start tokens)))
    (haccounts : trace.Accounts language (tokens.map (·.lexeme)) 0) {value : α}
    (hvalue : language (tokens.map (·.lexeme)) value) :
    trace.result = .ok value ∧ trace.stop = tokens.length := by
  have hrun := (hstart.run_deep hdepth).trans ((hexact.accepts tokens value).2 hvalue)
  rw [hdescribes.run_complete, Trace.complete_answer_eq_ok] at hrun
  exact ⟨hrun.1, Nat.le_antisymm (haccounts.sound_end hrun.1).1 hrun.2⟩

/-- Where the tokens go on to a phrase, a run notices the first one behind them. -/
theorem StartsRetraced.exists_meets (hstart : StartsRetraced start language)
    (hexact : ParsesExactly (Grammar.read .stored start) language) {token : Token}
    {more : List Token} {depth : Nat} (hdepth : Grammar.depthFor (tokens ++ token :: more) ≤ depth)
    {value : α} (hvalue : language ((tokens ++ token :: more).map (·.lexeme)) value) :
    ∃ trace : Trace α,
      trace.Describes (.start tokens) (start (Grammar.rules .stored depth) (.start tokens)) ∧
        trace.Meets tokens (token :: more) := by
  obtain ⟨trace, hdescribes, haccounts, hmeets | hrerun⟩ :=
    hstart.exists_trace tokens (token :: more) hdepth
  · exact ⟨trace, hdescribes, hmeets⟩
  · -- A run that reads the whole phrase does not stop where the tokens do.
    have hread := (hexact.accepts _ value).2 hvalue
    rw [hstart.read_eq_answer hrerun, Trace.complete_answer_eq_ok, List.length_append,
      List.length_cons] at hread
    have hstop := (haccounts.sound_end hread.1).1
    omega

/-- Up to a frontier all tokens are read as if there were no others, and the answer is that. -/
theorem Frontier.exists_trace (hfrontier : Frontier language tokens rest)
    (hstart : StartsRetraced start language)
    (hfits : ∀ token ∈ tokens ++ rest, Lexeme.Fits token.lexeme) {depth : Nat}
    (hdepth : Grammar.depthFor (tokens ++ rest) ≤ depth) :
    ∃ trace : Trace α,
      trace.Describes (.start tokens) (start (Grammar.rules .stored depth) (.start tokens)) ∧
        trace.Accounts language (tokens.map (·.lexeme)) 0 ∧
          Grammar.read .stored start (tokens ++ rest)
            = (trace.complete (tokens ++ rest).length).answer (tokens ++ rest) := by
  obtain ⟨trace, hstored, haccounts, hmeets | hrerun⟩ := hstart.exists_trace tokens rest hdepth
  · -- The token behind the frontier is not expected, as it would go on with a phrase.
    obtain ⟨failure, hmem, hindex, token, hhead, hitem⟩ := hmeets
    have hfront : ∀ token ∈ tokens, token.lexeme.Fits := fun token hmem =>
      hfits token (List.mem_append_left _ hmem)
    have hnext : token.lexeme.Fits :=
      hfits token (List.mem_append_right _ (List.mem_of_mem_head? hhead))
    rcases (haccounts.explains_end hfront hmem).2.2 hindex _ hitem with hname | ⟨-, hclass⟩
    · exact absurd hname token.lexeme.className_not_mem_phraseNames
    · exact absurd (hclass token.lexeme hnext rfl) (hfrontier.stuck hhead)
  · exact ⟨trace, hstored, haccounts, hstart.read_eq_answer hrerun⟩

end

/-! ## Errors at a frontier -/

/-- An error is the answer of a trace with a failure at the end of some tokens, where it expects an
item. -/
def ParseError.Tracks (error : ParseError) (language : Language α) (tokens rest : List Token)
    (item : String) : Prop :=
  ∃ trace : Trace α, trace.Accounts language (tokens.map (·.lexeme)) 0 ∧
    (trace.complete (tokens ++ rest).length).answer (tokens ++ rest) = .error error ∧
      ∃ failure ∈ (trace.complete (tokens ++ rest).length).failures,
        failure.index = tokens.length ∧ item ∈ failure.expected

section

variable {start : Rules → Production α} {language : Language α} {tokens rest : List Token}
variable {error : ParseError}

/-- Such an error is reported there, with the item and with nothing that may not come there. -/
theorem ParseError.Tracks.reports {item : String} (h : error.Tracks language tokens rest item)
    (hfits : ∀ token ∈ tokens, token.lexeme.Fits) :
    (∃ text expected, error = { Failure.report (tokens ++ rest).toArray
        ⟨tokens.length, text, expected⟩ with
      remainder := some (" ".intercalate (rest.map (·.lexeme.text))) }) ∧
    error.expected.Nodup ∧ item ∈ error.expected ∧
      ∀ other ∈ error.expected, other ∈ phraseNames ∨
        ∃ w value, language (tokens.map (·.lexeme) ++ w) value ∧ nextName w = other := by
  obtain ⟨trace, haccounts, hanswer, failure, hmem, hindex, hitem⟩ := h
  obtain ⟨furthest, hfurthest, rfl⟩ := Trace.answer_eq_error (List.ne_nil_of_mem hmem) hanswer
  obtain ⟨_, hreported, horigin⟩ := hfurthest.origin
  obtain ⟨first, hfirst, rfl⟩ := List.mem_map.1 hreported
  have hfirstIndex : furthest.index = first.index := by
    rw [horigin]
    rfl
  have hfirstLe := (haccounts.complete_end hfits hfirst).1
  -- No failure is further than the end of the tokens, and one is as far.
  obtain ⟨hplace, hsubset⟩ : furthest.index = tokens.length ∧
      failure.expected ⊆ furthest.expected := by
    obtain ⟨_, heq, hlt | ⟨hsame, hsubset⟩⟩ := hfurthest.absorbs _ (List.mem_map_of_mem hmem)
    · cases heq
      change failure.index < furthest.index at hlt
      omega
    · cases heq
      exact ⟨hsame.symm.trans hindex, hsubset⟩
  refine ⟨⟨first.text, furthest.expected, ?_⟩, hfurthest.nodup ?_, hsubset hitem, ?_⟩
  · rw [hplace, List.drop_left, horigin, ← hplace, hfirstIndex]
    rfl
  · rintro _ hmem'
    obtain ⟨other, hother, rfl⟩ := List.mem_map.1 hmem'
    exact (haccounts.complete_end hfits hother).2.1
  · intro other hexpected
    obtain ⟨_, hmem', hsame, hexpected⟩ := hfurthest.expected other hexpected
    obtain ⟨source, hsource, rfl⟩ := List.mem_map.1 hmem'
    exact (haccounts.complete_end hfits hsource).2.2 (hsame.trans hplace) other hexpected

/-- Where the tokens up to a frontier are a phrase, the end is expected. -/
theorem Frontier.tracks_end (hfrontier : Frontier language tokens rest)
    (hstart : StartsRetraced start language)
    (hexact : ParsesExactly (Grammar.read .stored start) language)
    (hfits : ∀ token ∈ tokens ++ rest, Lexeme.Fits token.lexeme)
    (herror : Grammar.read .stored start (tokens ++ rest) = .error error) {value : α}
    (hvalue : language (tokens.map (·.lexeme)) value) :
    error.Tracks language tokens rest "end of input" := by
  have hdepth : Grammar.depthFor tokens ≤ Grammar.depthFor (tokens ++ rest) := by
    unfold Grammar.depthFor
    rw [List.length_append]
    omega
  obtain ⟨trace, hdescribes, haccounts, hanswer⟩ :=
    hfrontier.exists_trace hstart hfits (Nat.le_refl _)
  obtain ⟨hok, hstop⟩ := hstart.reads_all hexact hdepth hdescribes haccounts hvalue
  have hrest : rest ≠ [] := by
    rintro rfl
    rw [List.append_nil, (hexact.accepts tokens value).2 hvalue] at herror
    cases herror
  have hlt : trace.stop < (tokens ++ rest).length := by
    rw [hstop, List.length_append]
    exact Nat.lt_add_of_pos_right (List.length_pos_of_ne_nil hrest)
  exact ⟨trace, haccounts, hanswer.symm.trans herror, _,
    Trace.mem_failures_complete.2 (.inr ⟨value, hok, hlt, rfl⟩), hstop, List.mem_singleton_self _⟩

/-- Where a phrase goes on at a frontier, the class of its next lexeme is expected. -/
theorem Frontier.tracks_class (hfrontier : Frontier language tokens rest)
    (hstart : StartsRetraced start language)
    (hexact : ParsesExactly (Grammar.read .stored start) language)
    (hfits : ∀ token ∈ tokens ++ rest, Lexeme.Fits token.lexeme)
    (herror : Grammar.read .stored start (tokens ++ rest) = .error error) {lexeme : Lexeme}
    {w : List Lexeme} {value : α} (hvalue : language (tokens.map (·.lexeme) ++ lexeme :: w) value) :
    error.Tracks language tokens rest lexeme.className := by
  have hfront : ∀ token ∈ tokens, token.lexeme.Fits := fun token hmem =>
    hfits token (List.mem_append_left _ hmem)
  -- The tokens are continued to the phrase, and one run is compared with both continuations.
  let token (lexeme : Lexeme) : Token := ⟨lexeme, ⟨.start, .start, ""⟩⟩
  have hwhole : (tokens ++ token lexeme :: w.map token).map (·.lexeme)
      = tokens.map (·.lexeme) ++ lexeme :: w := by
    rw [List.map_append, List.map_cons, List.map_map]
    exact congrArg (fun v => tokens.map (·.lexeme) ++ lexeme :: v) (List.map_id w)
  rw [← hwhole] at hvalue
  obtain ⟨trace, hdescribes, haccounts, hanswer⟩ :=
    hfrontier.exists_trace hstart hfits (Nat.le_max_left _ _)
  obtain ⟨trace', hdescribes', failure, hmem, hindex, _, ⟨⟩, hitem⟩ :=
    hstart.exists_meets hexact (Nat.le_max_right (Grammar.depthFor (tokens ++ rest)) _) hvalue
  have hlast : ∀ other ∈ trace.failures, other.index ≤ failure.index := by
    rw [hindex]
    exact fun other hother => (haccounts.explains_end hfront hother).1
  obtain ⟨other, hother, hplace, hexpected⟩ :=
    hdescribes.exists_failure hdescribes' hmem hitem hlast
  exact ⟨trace, haccounts, hanswer.symm.trans herror, other,
    Trace.mem_failures_complete.2 (.inl hother), hplace.trans hindex, hexpected⟩

/-- The error of a whole run is reported at the frontier, with what a phrase goes on with there. -/
theorem Frontier.reports (hfrontier : Frontier language tokens rest)
    (hstart : StartsRetraced start language)
    (hexact : ParsesExactly (Grammar.read .stored start) language)
    (hfits : ∀ token ∈ tokens ++ rest, Lexeme.Fits token.lexeme)
    (herror : Grammar.read .stored start (tokens ++ rest) = .error error) :
    (∃ text expected, error = { Failure.report (tokens ++ rest).toArray
        ⟨tokens.length, text, expected⟩ with
      remainder := some (" ".intercalate (rest.map (·.lexeme.text))) }) ∧
    error.expected.Nodup ∧ ∀ item, item ∉ phraseNames → (item ∈ error.expected ↔
      ∃ w value, language (tokens.map (·.lexeme) ++ w) value ∧ nextName w = item) := by
  have hfront : ∀ token ∈ tokens, token.lexeme.Fits := fun token hmem =>
    hfits token (List.mem_append_left _ hmem)
  have htracks : ∀ w value, language (tokens.map (·.lexeme) ++ w) value →
      error.Tracks language tokens rest (nextName w) := by
    rintro (_ | ⟨lexeme, w⟩) value hvalue
    · rw [List.append_nil] at hvalue
      exact hfrontier.tracks_end hstart hexact hfits herror hvalue
    · exact hfrontier.tracks_class hstart hexact hfits herror hvalue
  obtain ⟨w, value, hvalue⟩ := hfrontier.viable
  obtain ⟨hreport, hnodup, -, hsound⟩ := (htracks w value hvalue).reports hfront
  refine ⟨hreport, hnodup, fun item hname => ⟨?_, ?_⟩⟩
  · exact fun hitem => (hsound item hitem).resolve_left hname
  · rintro ⟨v, result, hresult, rfl⟩
    exact ((htracks v result hresult).reports hfront).2.2.1

/-- The error of a whole run pinpoints where the longest start of a phrase ends. -/
theorem StartsRetraced.pinpoints (hstart : StartsRetraced start language)
    (hexact : ParsesExactly (Grammar.read .stored start) language) (hviable : language.Viable [])
    (hfits : ∀ token ∈ tokens, Lexeme.Fits token.lexeme)
    (herror : Grammar.read .stored start tokens = .error error) :
    error.Pinpoints language tokens := by
  obtain ⟨front, back, hsplit, hfrontier⟩ := exists_frontier [] tokens hviable
  rw [List.nil_append] at hsplit
  subst hsplit
  obtain ⟨⟨text, expected, rfl⟩, hnodup, hexpected⟩ :=
    hfrontier.reports hstart hexact hfits herror
  have htake : ((front ++ back).take front.length).map (·.lexeme) = front.map (·.lexeme) := by
    rw [List.take_left]
  have htoken : (front ++ back).toArray[front.length]? = (front ++ back)[front.length]? :=
    List.getElem?_toArray
  constructor <;> dsimp only [Failure.report] at hnodup hexpected ⊢
  case index_le =>
    rw [List.length_append]
    exact Nat.le_add_right _ _
  case viable =>
    rw [htake]
    exact hfrontier.viable
  case stuck =>
    cases back with
    | nil => exact fun hlt => absurd hlt (by simp)
    | cons token back =>
      intro _
      rw [List.take_length_add_append, List.map_append]
      exact hfrontier.stuck rfl
  case nodup => exact hnodup
  case classes =>
    intro item hname hend
    rw [htake, hexpected item hname]
    constructor
    · rintro ⟨_ | ⟨lexeme, w⟩, value, hvalue, rfl⟩
      · exact absurd rfl hend
      · rw [List.append_cons] at hvalue
        exact ⟨lexeme, rfl, w, value, hvalue⟩
    · rintro ⟨lexeme, rfl, w, value, hvalue⟩
      rw [← List.append_cons] at hvalue
      exact ⟨lexeme :: w, value, hvalue, rfl⟩
  case ending =>
    rw [htake, hexpected "end of input" (by simp [phraseNames])]
    constructor
    · rintro ⟨_ | ⟨lexeme, w⟩, value, hvalue, hname⟩
      · rw [List.append_nil] at hvalue
        exact ⟨value, hvalue⟩
      · exact absurd hname lexeme.className_ne_end
    · rintro ⟨value, hvalue⟩
      exact ⟨[], value, by rwa [List.append_nil], rfl⟩
  case found => rw [htoken]
  case position => rw [htoken]
  case remainder => rw [List.drop_left]

end

/-! ## The parser -/

/--
Where all integers fit, the errors of the parser pinpoint what is wrong with tokens that are no
expression, no block or no program.
-/
theorem parse_error_pinpoints {tokens : List Token}
    (hfits : ∀ token ∈ tokens, token.lexeme.Fits) :
    (∀ error, Expr.parse tokens = .error error → error.Pinpoints Phrase.Expression tokens) ∧
      (∀ error, Stmt.parse tokens = .error error → error.Pinpoints Phrase.Block tokens) ∧
        ∀ error, Program.parse tokens = .error error → error.Pinpoints Phrase.Program tokens :=
  ⟨fun _ => startsRetraced_expression.pinpoints (.of_accepts fun _ _ => Expr.parse_eq_ok)
      Phrase.viable_expression hfits,
    fun _ => startsRetraced_block.pinpoints (.of_accepts fun _ _ => Stmt.parse_eq_ok)
      Phrase.viable_block hfits,
    fun _ => startsRetraced_program.pinpoints (.of_accepts fun _ _ => Program.parse_eq_ok)
      Phrase.viable_program hfits⟩

/-- A sum that lacks its second operand. -/
def danglingOperator : List Token :=
  [⟨.integer "1", ⟨.start, .start, ""⟩⟩, ⟨.reserved .plus, ⟨.start, .start, ""⟩⟩]

/-- Such a sum is reported at its end, or where something else than an expression should start. -/
theorem parse_error_pinpoints_danglingOperator :
    (∃ error, Expr.parse danglingOperator = .error error ∧ error.index = 2 ∧
      error.Pinpoints Phrase.Expression danglingOperator) ∧
    (∃ error, Stmt.parse danglingOperator = .error error ∧ error.index = 0 ∧
      error.Pinpoints Phrase.Block danglingOperator) ∧
    ∃ error, Program.parse danglingOperator = .error error ∧ error.index = 0 ∧
      error.Pinpoints Phrase.Program danglingOperator := by
  have hfits : ∀ token ∈ danglingOperator, token.lexeme.Fits := by
    intro token hmem
    rcases List.mem_pair.1 hmem with rfl | rfl
    · exact ⟨rfl, 1, Decimal.readInt64_eq_ok.1 rfl⟩
    · trivial
  have hexpr : Expr.parse danglingOperator = .error
      { text := "unexpected token", expected := ["identifier", "'-'", "integer", "'('"],
        found := some "end of input", index := 2, remainder := some "" } := by
    decide +kernel
  have hstmt : Stmt.parse danglingOperator = .error
      { text := "unexpected token", expected := ["identifier", "'if'", "'while'", "statement"],
        found := some "integer '1'", position := some ⟨.start, .start, ""⟩,
        remainder := some "1 +" } := by
    decide +kernel
  have hprogram : Program.parse danglingOperator = .error
      { text := "unexpected token", expected := ["'func'"], found := some "integer '1'",
        position := some ⟨.start, .start, ""⟩, remainder := some "1 +" } := by
    decide +kernel
  obtain ⟨hpinpoints, hpinpoints', hpinpoints''⟩ := parse_error_pinpoints hfits
  exact ⟨⟨_, hexpr, rfl, hpinpoints _ hexpr⟩, ⟨_, hstmt, rfl, hpinpoints' _ hstmt⟩,
    ⟨_, hprogram, rfl, hpinpoints'' _ hprogram⟩⟩

end WhileLang

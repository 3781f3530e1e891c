import WhileLang.Proofs.Parser.Expressions

/-!
# Productions of statements and programs read their phrases

Main results:

- Theorems {lit}`Reads.block`, {lit}`Reads.function` and {lit}`Reads.program`.
-/

namespace WhileLang

open Grammar (Production Rules)

/-! ## What stands behind statements -/

/-- No statement starts with a lexeme that goes on with an expression. -/
theorem continuesLogic_of_startsStatement {lexeme : Lexeme} (h : lexeme.startsStatement = true) :
    lexeme.continuesLogic = false := by
  unfold Lexeme.startsStatement at h
  split at h <;> first | rfl | cases h

/-- A block may stand behind a condition. -/
theorem stopsBefore_block {v rest : List Lexeme} {body : Stmt} (hv : Phrase.Block v body) :
    StopsBefore Lexeme.continuesLogic (v ++ rest) := by
  obtain ⟨lexeme, w, rfl, hstarts⟩ := Phrase.startsWith_block v body hv
  exact stopsBefore_cons.2 (continuesLogic_of_startsStatement hstarts)

/-- A word that goes on with no expression may stand behind a block, unless it is a semicolon. -/
theorem stopsBlock_word (word : Reserved)
    (hword : (Lexeme.reserved word).continuesLogic = false) (hother : word ≠ .semicolon)
    (rest : List Lexeme) : StopsBlock (.reserved word :: rest) := by
  refine ⟨stopsBefore_cons.2 hword, fun lexeme hhead => ?_⟩
  rw [List.head?_cons, Option.some.injEq, Lexeme.reserved.injEq] at hhead
  exact absurd hhead hother

/-- What may follow the statements of a function: a return, perhaps after a semicolon. -/
def StopsBody (rest : List Lexeme) : Prop :=
  NextIs .returnWord rest ∨ ∃ other, rest = .reserved .semicolon :: .reserved .returnWord :: other

theorem StopsBody.stopsBlock {rest : List Lexeme} (h : StopsBody rest) : StopsBlock rest := by
  rcases h with ⟨other, rfl⟩ | ⟨other, rfl⟩
  · exact stopsBlock_word .returnWord rfl nofun other
  · refine ⟨stopsBefore_cons.2 rfl, fun lexeme _ hhead => ?_⟩
    cases hhead
    rfl

theorem StopsBody.startsStatement {lexeme : Lexeme} {rest : List Lexeme}
    (h : StopsBody (lexeme :: rest)) : lexeme.startsStatement = false := by
  rcases h with ⟨other, heq⟩ | ⟨other, heq⟩
  · cases heq
    rfl
  · cases heq
    rfl

namespace Reads

variable {left : Nat} {follow : List Lexeme → Prop} {rules : Rules}

/-! ## Statements -/

/-- The phrases of an assignment. -/
def assignments : Language Stmt :=
  ((Language.before Phrase.Identifier .assign).seq Phrase.Expression).map
    fun (name, value) => .assign name value

theorem assignment (h : ReadBelow left rules) :
    Reads left (Grammar.assignment rules) assignments (StopsBefore Lexeme.continuesLogic) := by
  have hname : Reads left (Grammar.identifier.skip (Parser.literal ":="))
      (Language.before Phrase.Identifier .assign) fun _ => True :=
    skipWord (identifier : Reads left _ _ fun _ => True) .assign rfl fun _ => trivial
  refine (hname.seq ?_ fun _ _ _ _ _ => trivial).map _
  rintro _ _ ⟨v, rfl, _⟩ hlength
  rw [List.length_append, List.length_cons] at hlength ⊢
  exact expression_below h (by omega)

/-- The phrases of a condition behind a word, with a block. -/
def conditioned (word : Reserved) : Language (Expr × Stmt) :=
  (Language.behind Phrase.Logic word).seq Phrase.Block

theorem conditionedBlock (h : ReadBelow left rules) (word : Reserved)
    (hword : (Lexeme.reserved word).tag = .symbol) :
    Reads left (((Parser.literal word.text).skipLeft (rules .logic)).seq (rules .block))
      (conditioned word) StopsBlock := by
  have hcondition : Reads left ((Parser.literal word.text).skipLeft (rules .logic)) _
      (StopsBefore Lexeme.continuesLogic) :=
    afterWord word hword fun hpos => h (left - 1) (by omega) .logic
  refine hcondition.seq ?_ fun v body rest hv _ => stopsBefore_block hv
  rintro _ _ ⟨v, rfl, _⟩ hlength
  rw [List.length_cons] at hlength ⊢
  exact h _ (by omega) .block

def conditionals : Language Stmt :=
  (((conditioned .ifWord).seq (Language.behind Phrase.Block .elseWord).option).before .endWord).map
    fun ((condition, body), alternative) =>
      match alternative with
      | none => .ifThen condition body
      | some alternative => .ifElse condition body alternative

theorem conditional (h : ReadBelow left rules) :
    Reads left (Grammar.conditional rules) conditionals follow := by
  have halternative : ∀ u pair, conditioned .ifWord u pair → u.length ≤ left →
      Reads (left - u.length)
        (Parser.optional ((Parser.literal "else").skipLeft (rules .block)))
        (Language.behind Phrase.Block .elseWord).option (NextIs .endWord) := by
    intro u pair _ _
    have helse : Reads (left - u.length) ((Parser.literal "else").skipLeft (rules .block))
        (Language.behind Phrase.Block .elseWord) StopsBlock :=
      afterWord .elseWord rfl fun hpos => h _ (by omega) .block
    refine helse.optional ?_ ?_
    · rintro _ ⟨rest, rfl⟩
      exact stopsBlock_word .endWord rfl nofun rest
    · rintro _ body rest ⟨v, rfl, _⟩ ⟨other, heq⟩
      cases heq
  refine ((((conditionedBlock h .ifWord rfl).seq halternative ?_).skipWord .endWord rfl
    fun rest => ⟨rest, rfl⟩).map _)
  rintro v alternative _ hv ⟨rest, rfl⟩
  cases alternative with
  | none =>
    have hempty : v = [] := hv
    rw [hempty]
    exact stopsBlock_word .endWord rfl nofun rest
  | some body =>
    obtain ⟨w, rfl, _⟩ := hv
    exact stopsBlock_word .elseWord rfl nofun _

def loops : Language Stmt :=
  ((conditioned .whileWord).before .endWord).map fun (condition, body) => .loop condition body

theorem loop (h : ReadBelow left rules) : Reads left (Grammar.loop rules) loops follow :=
  ((conditionedBlock h .whileWord rfl).skipWord .endWord rfl
    (stopsBlock_word .endWord rfl nofun)).map _

theorem statement_iff {u : List Lexeme} {tree : Stmt} :
    ((assignments.or conditionals).or loops) u tree ↔ Phrase.Statement u tree := by
  constructor
  · rintro ((⟨_, ⟨_, v, name, rfl, ⟨_, rfl, ⟨⟩⟩, value, hvalue, rfl⟩, rfl⟩ |
      ⟨_, ⟨_, rfl, _, w, _, rfl, ⟨_, v, condition, rfl, ⟨u, rfl, hu⟩, body, hv, rfl⟩, alternative,
        hw, rfl⟩, rfl⟩) | ⟨_, ⟨_, rfl, ⟨_, v, condition, rfl, ⟨u, rfl, hu⟩, body, hv, rfl⟩⟩, rfl⟩)
    · exact .assign name hvalue
    · cases alternative with
      | none =>
        have hempty : w = [] := hw
        simp only [hempty, List.append_nil, List.cons_append, List.append_assoc]
        exact .ifThen hu hv
      | some alternative =>
        obtain ⟨w, rfl, hw⟩ := hw
        simp only [List.cons_append, List.append_assoc]
        exact .ifElse hu hv hw
    · simp only [List.cons_append, List.append_assoc]
      exact .loop hu hv
  · intro h
    cases h with
    | assign name hvalue =>
      exact .inl (.inl ⟨_, ⟨[_, _], _, _, rfl, ⟨[_], rfl, .intro name⟩, _, hvalue, rfl⟩, rfl⟩)
    | @ifThen u v condition body hu hv =>
      refine .inl (.inr ⟨((condition, body), none), ⟨_, ?_, _, [], _, rfl,
        ⟨_, v, _, rfl, ⟨u, rfl, hu⟩, _, hv, rfl⟩, none, rfl, rfl⟩, rfl⟩)
      simp only [List.append_nil, List.cons_append, List.append_assoc]
    | @ifElse u v w condition body alternative hu hv hw =>
      refine .inl (.inr ⟨((condition, body), some alternative), ⟨_, ?_, _, _, _, rfl,
        ⟨_, v, _, rfl, ⟨u, rfl, hu⟩, _, hv, rfl⟩, some alternative, ⟨w, rfl, hw⟩, rfl⟩, rfl⟩)
      simp only [List.cons_append, List.append_assoc]
    | @loop u v condition body hu hv =>
      refine .inr ⟨(condition, body), ⟨_, ?_, ⟨_, v, _, rfl, ⟨u, rfl, hu⟩, _, hv, rfl⟩⟩, rfl⟩
      simp only [List.cons_append, List.append_assoc]

theorem coherent_alternatives : Coherent assignments conditionals follow ∧
    Coherent conditionals assignments follow ∧ Coherent (assignments.or conditionals) loops follow ∧
      Coherent loops (assignments.or conditionals) follow := by
  have hassignments : assignments.StartsWith Lexeme.isName := by
    rintro _ _ ⟨_, ⟨_, _, _, rfl, ⟨_, rfl, ⟨⟩⟩, _⟩, rfl⟩
    exact ⟨_, _, rfl, rfl⟩
  have hconditionals : conditionals.StartsWith (· = .reserved .ifWord) := by
    rintro _ _ ⟨_, ⟨_, rfl, _, _, _, rfl, ⟨_, _, _, rfl, ⟨_, rfl, _⟩, _⟩, _⟩, rfl⟩
    exact ⟨_, _, rfl, rfl⟩
  have hloops : loops.StartsWith (· = .reserved .whileWord) := by
    rintro _ _ ⟨_, ⟨_, rfl, _, _, _, rfl, ⟨_, rfl, _⟩, _⟩, rfl⟩
    exact ⟨_, _, rfl, rfl⟩
  have hname : ∀ word lexeme, Lexeme.isName lexeme = true →
      decide (lexeme = .reserved word) = false := by
    rintro word (_ | name | digits) h
    · cases h
    · rfl
    · cases h
  have hword : ∀ word lexeme, decide (lexeme = Lexeme.reserved word) = true →
      Lexeme.isName lexeme = false := by
    intro word lexeme h
    rw [of_decide_eq_true h]
    rfl
  have hother : ∀ word other, word ≠ other → ∀ lexeme,
      decide (lexeme = Lexeme.reserved word) = true →
        decide (lexeme = Lexeme.reserved other) = false := by
    intro word other hne lexeme h
    rw [of_decide_eq_true h, decide_eq_false_iff_not, Lexeme.reserved.injEq]
    exact hne
  exact ⟨.of_starts hassignments hconditionals (hname _),
    .of_starts hconditionals hassignments (hword _),
    (Coherent.of_starts hassignments hloops (hname _)).or_left
      (.of_starts hconditionals hloops (hother _ _ nofun)),
    (Coherent.of_starts hloops hassignments (hword _)).or_right
      (.of_starts hloops hconditionals (hother _ _ nofun))⟩

theorem semicolon_iff {u : List Lexeme} {combine : Stmt → Stmt → Stmt} :
    ((Language.word .semicolon).map fun _ => .seq) u combine ↔ Phrase.Semicolon u combine := by
  constructor
  · rintro ⟨_, ⟨rfl, _⟩, rfl⟩
    exact .intro
  · rintro ⟨⟩
    exact ⟨_, ⟨rfl, rfl⟩, rfl⟩

theorem block (h : ReadBelow left rules) :
    Reads left (Grammar.block rules) Phrase.Block StopsBlock := by
  have hcoherent : _ ∧ _ ∧ _ ∧ Coherent _ _ (StopsBefore Lexeme.continuesLogic) :=
    coherent_alternatives
  obtain ⟨hone, htwo, hthree, hfour⟩ := hcoherent
  have hstatement := ((((assignment h).or (conditional h) hone htwo).or (loop h) hthree hfour).congr
    fun _ _ => statement_iff).label "statement"
  have hsemicolon : Reads left ((Parser.literal ";").map fun _ => Stmt.seq) Phrase.Semicolon
      fun _ => True :=
    ((Reads.word .semicolon rfl).map _).congr fun _ _ => semicolon_iff
  have hseparates : Separates Phrase.Statement Phrase.Semicolon
      (StopsBefore Lexeme.continuesLogic) StopsBlock := by
    refine ⟨?_, ?_, fun _ hrest => hrest.1, ?_⟩
    · rintro _ _ ⟨⟩
      exact Nat.one_pos
    · rintro _ rest _ ⟨⟩
      exact stopsBefore_cons.2 rfl
    · rintro _ v rest _ tree ⟨⟩ hv ⟨-, hsecond⟩
      obtain ⟨lexeme, w, rfl, hstarts⟩ := Phrase.startsWith_statement v tree hv
      rw [hsecond lexeme rfl rfl] at hstarts
      cases hstarts
  exact (hstatement.chainLeft hsemicolon hseparates).congr fun u tree =>
    ⟨fun hchain => .chain hchain, fun ⟨hchain⟩ => hchain⟩

/-! ## Programs -/

/-- The phrases of the first part of a function, with its name and parameters. -/
def headers : Language (String × List String) :=
  (Language.behind Phrase.Identifier .funcWord).seq
    ((Language.behind (CommaList Phrase.Identifier) .leftParen).before .rightParen)

theorem header :
    Reads left (((Parser.literal "func").skipLeft Grammar.identifier).seq
      (((Parser.literal "(").skipLeft (Grammar.commaList Grammar.identifier)).skip
        (Parser.literal ")"))) headers follow := by
  have hname : Reads left ((Parser.literal "func").skipLeft Grammar.identifier)
      (Language.behind Phrase.Identifier .funcWord) fun _ => True :=
    afterWord .funcWord rfl fun _ => identifier
  have hstarts : Language.StartsWith Phrase.Identifier Lexeme.isName := by
    rintro _ _ ⟨⟩
    exact ⟨_, _, rfl, rfl⟩
  have hparams : ∀ fewer, Reads fewer (Grammar.commaList Grammar.identifier)
      (CommaList Phrase.Identifier) (NextIs .rightParen) := fun fewer =>
    commaList (identifier : Reads fewer _ _ fun _ => True) (fun _ => trivial) (fun _ => trivial)
      hstarts rfl
  exact hname.seq (fun _ _ _ _ => parenthesized (fun _ => hparams _) fun rest => ⟨rest, rfl⟩)
    fun _ _ _ _ _ => trivial

/-- The body of a function is a block that may be missing, perhaps with a semicolon behind it. -/
theorem body_iff {u : List Lexeme} {body : Option Stmt} :
    ((Language.behind (Language.option Phrase.Block) .leftBrace).bind fun value =>
      (Language.word .semicolon).option.map fun _ => value) u body ↔
        Language.behind Phrase.Body .leftBrace u body := by
  constructor
  · rintro ⟨_, v, _, rfl, ⟨u, rfl, hu⟩, semicolon?, hv, rfl⟩
    refine ⟨u ++ v, rfl, ?_⟩
    cases semicolon? with
    | none =>
      have hempty : v = [] := hv
      rw [hempty, List.append_nil]
      cases body with
      | none =>
        have hempty : u = [] := hu
        rw [hempty]
        exact .none
      | some body => exact .block hu
    | some text =>
      rw [hv.1]
      cases body with
      | none =>
        have hempty : u = [] := hu
        rw [hempty]
        exact .noneSemicolon
      | some body => exact .blockSemicolon hu
  · rintro ⟨v, rfl, hv⟩
    cases hv with
    | none => exact ⟨[_], [], none, rfl, ⟨_, rfl, rfl⟩, none, rfl, rfl⟩
    | noneSemicolon =>
      exact ⟨[_], [_], none, rfl, ⟨_, rfl, rfl⟩, some _, ⟨rfl, rfl⟩, rfl⟩
    | @block _ tree hu =>
      exact ⟨_ :: v, [], some tree, (List.append_nil _).symm, ⟨_, rfl, hu⟩, none, rfl, rfl⟩
    | @blockSemicolon u tree hu =>
      exact ⟨_ :: u, [_], some tree, rfl, ⟨_, rfl, hu⟩, some _, ⟨rfl, rfl⟩, rfl⟩

theorem body (h : ReadBelow left rules) :
    Reads left (((Parser.literal "\x7b").skipLeft (Parser.optional (rules .block))).skip
      (Parser.optional (Parser.literal ";"))) (Language.behind Phrase.Body .leftBrace)
      (NextIs .returnWord) := by
  have hblock : Reads left ((Parser.literal "\x7b").skipLeft (Parser.optional (rules .block)))
      (Language.behind (Language.option Phrase.Block) .leftBrace) StopsBody := by
    refine afterWord .leftBrace rfl fun hpos => (h (left - 1) (by omega) .block).optional
      (fun _ => StopsBody.stopsBlock) fun u tree rest hu hrest => ?_
    obtain ⟨lexeme, v, rfl, hstarts⟩ := Phrase.startsWith_block u tree hu
    rw [hrest.startsStatement] at hstarts
    cases hstarts
  have hsemicolon : ∀ fewer, Reads fewer (Parser.optional (Parser.literal ";"))
      (Language.word .semicolon).option (NextIs .returnWord) := by
    intro fewer
    have hword : Reads fewer (Parser.literal ";") (Language.word .semicolon) fun _ => True :=
      Reads.word .semicolon rfl
    refine hword.optional (fun _ _ => trivial) ?_
    rintro _ _ rest ⟨rfl, _⟩ ⟨_, heq⟩
    cases heq
  refine (hblock.andThen (fun _ value _ _ => (hsemicolon _).map fun _ => value) ?_).congr
    fun _ _ => body_iff
  rintro value v _ _ ⟨semicolon?, hv, rfl⟩ ⟨rest, rfl⟩
  cases semicolon? with
  | none =>
    have hempty : v = [] := hv
    rw [hempty]
    exact .inl ⟨rest, rfl⟩
  | some text =>
    rw [hv.1]
    exact .inr ⟨rest, rfl⟩

/-- A function is a header, a body and what it returns. -/
theorem function_iff {u : List Lexeme} {definition : FunctionDef} :
    (((headers.seq (Language.behind Phrase.Body .leftBrace)).seq
      ((Language.behind Phrase.Expression .returnWord).before .rightBrace)).map
        fun (((name, params), body), result) => { name, params, body, result }) u definition ↔
          Phrase.Function u definition := by
  constructor
  · rintro ⟨_, ⟨_, _, _, rfl, ⟨_, _, _, rfl, ⟨_, _, name, rfl, ⟨_, rfl, ⟨⟩⟩, params,
      ⟨_, rfl, u, rfl, hu⟩, rfl⟩, body, ⟨v, rfl, hv⟩, rfl⟩, result, ⟨_, rfl, w, rfl, hw⟩, rfl⟩,
      rfl⟩
    simp only [List.cons_append, List.append_assoc, List.nil_append]
    exact .intro name hu hv hw
  · intro hfunction
    cases hfunction with
    | @intro name u v w params body result hu hv hw =>
      refine ⟨(((name, params), body), result), ⟨_, _, _, ?_, ⟨_, _, _, rfl, ⟨_, _, name, rfl,
        ⟨_, rfl, .intro name⟩, params, ⟨_, rfl, u, rfl, hu⟩, rfl⟩, body, ⟨v, rfl, hv⟩, rfl⟩,
        result, ⟨_, rfl, w, rfl, hw⟩, rfl⟩, rfl⟩
      simp only [List.cons_append, List.append_assoc, List.nil_append]

theorem function (h : ReadBelow left rules) :
    Reads left (Grammar.function rules) Phrase.Function follow := by
  have hheader : Reads left _ headers fun _ => True := header
  have hbody : ∀ u pair, headers u pair → u.length ≤ left → Reads (left - u.length) _ _ _ :=
    fun u _ _ _ => body fun fewer hfewer => h fewer (by omega)
  have hresult : ∀ u pair, headers.seq (Language.behind Phrase.Body .leftBrace) u pair →
      u.length ≤ left → Reads (left - u.length)
        (((Parser.literal "return").skipLeft (Grammar.expression rules)).skip
          (Parser.literal "\x7d"))
        ((Language.behind Phrase.Expression .returnWord).before .rightBrace) follow := by
    intro u pair _ _
    have hexpression : Reads (left - u.length)
        ((Parser.literal "return").skipLeft (Grammar.expression rules))
        (Language.behind Phrase.Expression .returnWord) (StopsBefore Lexeme.continuesLogic) :=
      afterWord .returnWord rfl fun hpos => expression_below h (by omega)
    exact hexpression.skipWord .rightBrace rfl fun _ => stopsBefore_cons.2 rfl
  refine (((hheader.seq hbody fun _ _ _ _ _ => trivial).seq hresult ?_).map _).congr
    fun _ _ => function_iff
  rintro _ _ rest ⟨_, rfl, v, rfl, _⟩ _
  exact ⟨_, rfl⟩

theorem program_iff {u : List Lexeme} {tree : Program} :
    (Language.map (SeparatedBy .semicolon Phrase.Function) fun functions => { functions }) u tree ↔
      Phrase.Program u tree := by
  constructor
  · rintro ⟨functions, h, rfl⟩
    exact .intro h
  · rintro ⟨h⟩
    exact ⟨_, h, rfl⟩

/-- Function definitions up to the end of the input. -/
theorem program (h : ReadBelow left rules) :
    Reads left (Grammar.program rules) Phrase.Program (· = []) := by
  have hfunction : Reads left (Grammar.function rules) Phrase.Function fun _ => True := function h
  have hfunctions : Reads left (Parser.separated (Grammar.function rules) ";")
      (SeparatedBy .semicolon Phrase.Function) (· = []) :=
    hfunction.separated .semicolon rfl (fun _ => trivial) (fun _ _ => trivial)
      fun _ _ _ _ => nofun
  exact (hfunctions.map _).congr fun _ _ => program_iff

end Reads

end WhileLang

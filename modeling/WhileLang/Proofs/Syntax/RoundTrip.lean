import WhileLang.Proofs.Grammar.Shapes
import WhileLang.Proofs.Parser.Exactness
import WhileLang.Proofs.Syntax.Lexemes
import WhileLang.Source

/-!
# Reading printed trees

The text of a canonical tree is a source of that tree, except that the chains of statements come
back nested to the left.  The trees of sources are canonical and nested in this way, so that
printing and reading again leaves them as they are.

Main definitions:

- Predicate {lit}`RoundTrips`: how printing and reading go together for a kind of trees.

Main results:

- Theorem {lit}`roundTrips_text`: they do for expressions, blocks and programs.
-/

namespace WhileLang

/-! ## Sources and phrases -/

theorem mapError_eq_ok {α ε ε' : Type} {result : Except ε α} {f : ε → ε'} {value : α} :
    result.mapError f = .ok value ↔ result = .ok value := by
  cases result with
  | error error => exact ⟨nofun, nofun⟩
  | ok other => exact ⟨fun h => by cases h; rfl, fun h => by cases h; rfl⟩

/-- A source has a tree exactly if it is scanned as a phrase for it. -/
theorem parseSource_eq_ok_iff {α : Type} {parse : List Token → Except ParseError α}
    {language : Language α}
    (hparse : ∀ tokens tree, parse tokens = .ok tree ↔ language (tokens.map (·.lexeme)) tree)
    {source : String} {tree : α} :
    parseSource parse source = .ok tree ↔
      ∃ lexemes, Scans source.toList lexemes ∧ language lexemes tree := by
  constructor
  · intro h
    rw [parseSource] at h
    cases hscan : Token.scan source with
    | error error =>
      rw [hscan] at h
      cases h
    | ok tokens =>
      rw [hscan] at h
      have htree : parse tokens = .ok tree := mapError_eq_ok.1 h
      exact ⟨tokens.map (·.lexeme), Token.scans_of_scan hscan, (hparse tokens tree).1 htree⟩
  · intro h
    obtain ⟨lexemes, hscans, hphrase⟩ := h
    obtain ⟨tokens, hscan, hlexemes⟩ := Token.scan_of_scans hscans
    have htree : parse tokens = .ok tree := by rwa [hparse, hlexemes]
    rw [parseSource, hscan]
    exact mapError_eq_ok.2 htree

/-! ## Round trips -/

/-- How printing trees of a kind and reading their sources go together. -/
structure RoundTrips {α : Type} (text : α → String) (ofSource : String → Except Error α)
    (IsCanonical : α → Prop) (leftNested : α → α) (isLeftNested : α → Bool) : Prop where
  /-- Only the nesting of chains may change. -/
  reads {tree : α} : IsCanonical tree → ofSource (text tree) = .ok (leftNested tree)
  /-- Chains nested to the left do not change either. -/
  keeps {tree : α} : IsCanonical tree → isLeftNested tree = true →
    ofSource (text tree) = .ok tree
  /-- Sources have no other trees. -/
  canonical {source : String} {tree : α} : ofSource source = .ok tree →
    IsCanonical tree ∧ isLeftNested tree = true
  /-- The tree of a source is also that of its printed form. -/
  stable {source : String} {tree : α} : ofSource source = .ok tree →
    ofSource (text tree) = .ok tree

/--
Printing and reading go together if trees are scanned as phrases for what they are read as, and if
phrases with identifiers for names have canonical trees that are read as themselves.
-/
theorem RoundTrips.of_phrases {α : Type} {parse : List Token → Except ParseError α}
    {language : Language α} {text : α → String} {lexemes : α → List Lexeme}
    {IsCanonical : α → Prop} {leftNested : α → α} {isLeftNested : α → Bool}
    (hparse : ∀ tokens tree, parse tokens = .ok tree ↔ language (tokens.map (·.lexeme)) tree)
    (hscans : ∀ tree, IsCanonical tree → Scans (text tree).toList (lexemes tree))
    (hphrase : ∀ tree, IsCanonical tree → language (lexemes tree) (leftNested tree))
    (hself : ∀ tree, isLeftNested tree = true → leftNested tree = tree)
    (hcanonical : ∀ u tree, language u tree →
      (∀ name, .identifier name ∈ u → isIdentifier name = true) →
        IsCanonical tree ∧ isLeftNested tree = true) :
    RoundTrips text (parseSource parse) IsCanonical leftNested isLeftNested := by
  have hreads : ∀ tree, IsCanonical tree →
      parseSource parse (text tree) = .ok (leftNested tree) := by
    intro tree h
    exact (parseSource_eq_ok_iff hparse).2 ⟨lexemes tree, hscans tree h, hphrase tree h⟩
  have hkeeps : ∀ tree, IsCanonical tree → isLeftNested tree = true →
      parseSource parse (text tree) = .ok tree := by
    intro tree h hnested
    rw [hreads tree h, hself tree hnested]
  have hsource : ∀ source tree, parseSource parse source = .ok tree →
      IsCanonical tree ∧ isLeftNested tree = true := by
    intro source tree h
    obtain ⟨u, hu, htree⟩ := (parseSource_eq_ok_iff hparse).1 h
    exact hcanonical u tree htree fun name hname => hu.isIdentifier hname
  exact {
    reads := hreads _
    keeps := hkeeps _
    canonical := hsource _ _
    stable := fun h => hkeeps _ (hsource _ _ h).1 (hsource _ _ h).2 }

/--
What is printed is read again: expressions come back as they are, and blocks and programs with their
chains nested to the left.  All sources have such trees.
-/
theorem roundTrips_text :
    RoundTrips Expr.text Expr.ofSource Expr.IsCanonical (fun tree => tree) (fun _ => true) ∧
      RoundTrips Stmt.text Stmt.ofSource Stmt.IsCanonical Stmt.leftNested Stmt.isLeftNested ∧
      RoundTrips Program.text Program.ofSource Program.IsCanonical Program.leftNested
        Program.isLeftNested := by
  refine ⟨?_, ?_, ?_⟩
  · refine .of_phrases (fun _ _ => Expr.parse_eq_ok) (fun tree h => (Expr.spells h.2).scans)
      (fun tree h => Expr.phrase_lexemes h.1) (fun _ _ => rfl) fun u tree htree hnamed => ?_
    have hshape := shapes_expression htree
    exact ⟨⟨hshape.shape, fun name hname => hnamed name (hshape.names hname)⟩, rfl⟩
  · refine .of_phrases (fun _ _ => Stmt.parse_eq_ok) (fun tree h => (Stmt.spells h.2 0).scans)
      (fun tree h => Stmt.phrase_lexemes h.1) (fun _ => Stmt.leftNested_eq_self)
      fun u tree htree hnamed => ?_
    have hshape := shapes_block htree
    have hnested := Stmt.hasNestedShape_iff.1 hshape.shape
    exact ⟨⟨hnested.1, fun name hname => hnamed name (hshape.names hname)⟩, hnested.2⟩
  · refine .of_phrases (fun _ _ => Program.parse_eq_ok) (fun tree h => Program.scans_text h.2)
      (fun tree h => Program.phrase_lexemes h.1) (fun _ => Program.leftNested_eq_self)
      fun u tree htree hnamed => ?_
    have hshape := shapes_program htree
    have hnested := Bool.and_eq_true_iff.1 hshape.shape
    exact ⟨⟨hnested.1, fun name hname => hnamed name (hshape.names hname)⟩, hnested.2⟩

end WhileLang

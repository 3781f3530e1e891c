import WhileLang.Proofs.Syntax.RoundTrip
import WhileLang.Proofs.Typing.ProgramWalks
import WhileLang.Proofs.Typing.Reports

/-!
# Deduplication by printed form

A report keeps one entry for each printed form.  Nothing is lost by this: readable terms that print
alike are equal, and all parts of the functions of a source are readable.  So a report has an entry
for each different part of the term of its function.

Main definitions:

- Predicate {lit}`FunctionTypes.ListsApart`: a report has one entry for each part of a term.

Main results:

- Theorem {lit}`Program.isReadable_of_ofSource`: what a source is translated to is readable.
- Theorem {lit}`Term.text_tellsApart`: reports on sources merge no different terms.
-/

namespace WhileLang

/-! ## Sources -/

namespace Program

variable {source : String} {program : Program}

/-- The names in the program of a source are identifiers. -/
theorem isNamed_of_ofSource (h : ofSource source = .ok program) : IsNamed program.names := by
  obtain ⟨lexemes, hscans, hphrase⟩ := (parseSource_eq_ok_iff fun _ _ => parse_eq_ok).1 h
  intro name hname
  exact hscans.isIdentifier ((shapes_program hphrase).names hname)

/-- The parts of all functions of a source are readable, also of those that are redefined. -/
theorem isReadable_of_ofSource (h : ofSource source = .ok program) {function : FunctionDef}
    (hfunction : function ∈ program.functions) {term part : Term}
    (hterm : function.toTerm program = .ok term) (hpart : part ∈ term.postOrder) :
    part.IsReadable := by
  have hnamed : IsNamed function.names := fun name hname =>
    isNamed_of_ofSource h name (List.mem_flatMap.2 ⟨function, hfunction, hname⟩)
  exact FunctionDef.isReadable_of_toTerm hnamed hterm hpart

end Program

/-! ## Reports -/

/-- Equal items can be left out before or after a function that tells the items apart. -/
theorem eraseDups_map_of_inj {τ β : Type} [DecidableEq τ] [DecidableEq β] {f : τ → β}
    {items : List τ} (h : ∀ a ∈ items, ∀ b ∈ items, f a = f b → a = b) :
    (items.map f).eraseDups = items.eraseDups.map f := by
  induction items using List.reverseRecOn with
  | nil => rfl
  | append_singleton items last ih =>
    have hsame : f last ∈ items.map f ↔ last ∈ items := by
      constructor
      · intro hmem
        obtain ⟨item, hitem, heq⟩ := List.mem_map.1 hmem
        have hlast := h item (List.mem_append_left _ hitem) last (by simp) heq
        exact hlast ▸ hitem
      · exact List.mem_map_of_mem
    rw [List.map_append, List.map_singleton, eraseDups_concat, eraseDups_concat,
      ih fun a ha b hb => h a (List.mem_append_left _ ha) b (List.mem_append_left _ hb)]
    by_cases hmem : last ∈ items
    · rw [if_pos (hsame.2 hmem), if_pos hmem]
    · rw [if_neg (mt hsame.1 hmem), if_neg hmem, List.map_append, List.map_singleton]

/-- A report has an entry for each different part of a term, in post-order. -/
def FunctionTypes.ListsApart (report : FunctionTypes) (term : Term) : Prop :=
  report.subterms.map (·.1) = term.postOrder.eraseDups.map (·.text)

/-- Parts that are readable are not merged by their printed forms. -/
theorem FunctionTypes.Lists.apart {report : FunctionTypes} {term : Term} (h : report.Lists term)
    (hreadable : ∀ part ∈ term.postOrder, part.IsReadable) : report.ListsApart term := by
  have hmap := eraseDups_map_of_inj fun part hpart other hother =>
    Term.eq_of_text (hreadable part hpart) (hreadable other hother)
  exact h.trans hmap

/--
Readable terms that print alike are equal.  All parts of the functions of a source are readable,
also of those that are redefined; so the reports on a source have an entry for each different part
of the term of their function.
-/
theorem Term.text_tellsApart :
    (∀ {term other : Term}, term.IsReadable → other.IsReadable → term.text = other.text →
      term = other) ∧
    ∀ {source : String} {program : Program}, Program.ofSource source = .ok program →
      (∀ {function : FunctionDef} {term part : Term}, function ∈ program.functions →
        function.toTerm program = .ok term → part ∈ term.postOrder → part.IsReadable) ∧
      ∀ {types : ProgramTypes}, program.inferTypes = .ok types →
        ∀ report ∈ types.main :: types.functions, ∃ function term,
          program.function? report.name = some function ∧ function.toTerm program = .ok term
            ∧ report.ListsApart term := by
  refine ⟨Term.eq_of_text, fun {_ program} hsource => ⟨fun hmem hterm hpart =>
    Program.isReadable_of_ofSource hsource hmem hterm hpart, ?_⟩⟩
  intro types htypes report hreport
  obtain ⟨function, term, hfunction, hterm, hlists⟩ :=
    (Program.reports_of_inferTypes htypes).lists report hreport
  have hmem : function ∈ program.functions := (Program.mem_functions_of_function? hfunction).1
  exact ⟨function, term, hfunction, hterm,
    hlists.apart fun _ hpart => Program.isReadable_of_ofSource hsource hmem hterm hpart⟩

/-- Signs next to operators, and a name next to its function. -/
def subtractingSource : String :=
  "func f(x) \x7b y := x - -1; return y - -1 \x7d; func main() \x7b return f(-2) \x7d"

/-- What is subtracted there. -/
def subtractingFunction : FunctionDef where
  name := "f"
  params := ["x"]
  body := some (.assign "y" (.math .sub (.var "x") (.int (-1))))
  result := .math .sub (.var "y") (.int (-1))

/-- The program of that source. -/
def subtracting : Program where
  functions := [subtractingFunction, ⟨entryPoint, [], none, .call "f" [.int (-2)]⟩]

/-- The term that is printed as
`\x::f. ((; ((:= y::f) ((- x::f) -1))) (return ((- y::f) -1)))`. -/
def subtractingTerm : Term :=
  .abs (.ofFunction "x" "f") (.binary ";"
    (.binary ":=" (.var (.ofFunction "y" "f"))
      (.binary "-" (.var (.ofFunction "x" "f")) (.literal (.int (-1)))))
    (.app (.global "return")
      (.binary "-" (.var (.ofFunction "y" "f")) (.literal (.int (-1))))))

/-- A source, the term of one of its functions, and the reports on it. -/
theorem Term.text_tellsApart_subtracting :
    Program.ofSource subtractingSource = .ok subtracting ∧
      subtractingFunction ∈ subtracting.functions ∧
      subtractingFunction.toTerm subtracting = .ok (subtracting.termOf "f") ∧
      ((subtracting.termOf "f").IsReadable ∧ subtractingTerm.IsReadable) ∧
      (subtracting.termOf "f").text = subtractingTerm.text ∧
      subtracting.termOf "f" = subtractingTerm ∧
      ∃ types, subtracting.inferTypes = .ok types ∧
        ∀ report ∈ types.main :: types.functions, ∃ function term,
          subtracting.function? report.name = some function
            ∧ function.toTerm subtracting = .ok term ∧ report.ListsApart term := by
  have hsource : Program.ofSource subtractingSource = .ok subtracting := by decide +kernel
  have hmem : subtractingFunction ∈ subtracting.functions := List.mem_cons_self
  have hterm : subtractingFunction.toTerm subtracting = .ok (subtracting.termOf "f") := by
    decide +kernel
  have hexplicit : subtractingTerm.IsReadable := by decide +kernel
  have htext : (subtracting.termOf "f").text = subtractingTerm.text := by decide +kernel
  obtain ⟨types, htypes⟩ := exists_of_isOk (show subtracting.inferTypes.isOk = true by
    decide +kernel)
  obtain ⟨hequal, hreports⟩ := Term.text_tellsApart
  obtain ⟨hreadable, hlists⟩ := hreports hsource
  have htranslated := hreadable hmem hterm (Term.mem_postOrder_self _)
  exact ⟨hsource, hmem, hterm, ⟨htranslated, hexplicit⟩, htext, hequal htranslated hexplicit htext,
    types, htypes, hlists htypes⟩

end WhileLang

import Std.Data.String.ToInt
import WhileLang.Proofs.Term.Leaves
import WhileLang.Proofs.Token.Scanning

/-!
# Printed forms of terms

Reports tell terms apart by their printed forms.  Within the term of a function, what prints like a
variable of the function is that variable, and terms over identifiers and operators that print alike
are equal.

Main definitions:

- Predicate {lit}`Term.IsReadable`: a term over words and operators, without definitions.

Main results:

- Theorem {lit}`Term.eq_var_of_text`: terms that print like variables.
- Theorem {lit}`Term.text_append_inj`: where a printed form ends, and which term it is that of.
- Theorem {lit}`Term.eq_of_text`: readable terms that print alike are equal.
- Theorems {lit}`mem_of_typeOf?` and {lit}`typeOf?_of_rows`: what is reported are the types of the
  rows.
-/

namespace WhileLang

/-! ## Literals -/

/-- The printed form of an integer is an optional sign and at least one digit. -/
theorem Value.text_int (number : Int64) :
    ∃ digits, digits ≠ [] ∧ (∀ c ∈ digits, c.isDigit = true)
      ∧ ((int number).text.toList = digits ∨ (int number).text.toList = '-' :: digits) := by
  have hdigits (magnitude : Nat) (c : Char) (hc : c ∈ Nat.toDigits 10 magnitude) :
      c.isDigit = true :=
    Nat.isDigit_of_mem_toDigits (by decide) (by decide) hc
  change ∃ digits, _ ∧ _ ∧ ((number.toInt.repr).toList = _ ∨ (number.toInt.repr).toList = _)
  cases number.toInt with
  | ofNat magnitude =>
    exact ⟨_, Nat.toDigits_ne_nil, hdigits magnitude, .inl Nat.toList_repr⟩
  | negSucc magnitude =>
    refine ⟨_, Nat.toDigits_ne_nil, hdigits (magnitude + 1), .inr ?_⟩
    change ("-" ++ Nat.repr (magnitude + 1)).toList = _
    rw [String.toList_append, Nat.toList_repr]
    rfl

/-- There is a digit in the printed form of an integer. -/
theorem Value.any_isDigit_text_int (number : Int64) :
    (int number).text.toList.any Char.isDigit = true := by
  obtain ⟨digits, hne, hdigits, htext⟩ := text_int number
  obtain ⟨c, rest, rfl⟩ := List.exists_cons_of_ne_nil hne
  rw [List.any_eq_true]
  refine ⟨c, ?_, hdigits c List.mem_cons_self⟩
  rcases htext with htext | htext
  · simp [htext]
  · simp [htext]

theorem Value.text_ne_nil (value : Value) : value.text.toList ≠ [] := by
  intro hnil
  cases value with
  | int number =>
    have hdigit := any_isDigit_text_int number
    rw [hnil] at hdigit
    cases hdigit
  | bool truth =>
    cases truth
    all_goals exact absurd hnil (by decide)

/-- Literals that print alike are equal. -/
theorem Value.text_inj {value other : Value} (h : value.text = other.text) : value = other := by
  have hkeyword (truth : Bool) : (bool truth).text.toList.any Char.isDigit = false := by
    cases truth
    all_goals decide
  have hint (number : Int64) (truth : Bool) : (int number).text ≠ (bool truth).text := by
    intro heq
    have hdigit := any_isDigit_text_int number
    rw [heq, hkeyword] at hdigit
    cases hdigit
  have hbool : (bool true).text ≠ (bool false).text := by decide
  cases value with
  | int number =>
    cases other with
    | int number' => exact congrArg int (Int64.toInt_inj.1 (Int.repr_inj.1 h))
    | bool truth => exact (hint number truth h).elim
  | bool truth =>
    cases other with
    | int number => exact (hint number truth h.symm).elim
    | bool truth' =>
      cases truth with
      | true =>
        cases truth' with
        | true => rfl
        | false => exact (hbool h).elim
      | false =>
        cases truth' with
        | true => exact (hbool h.symm).elim
        | false => rfl

/-- Literals are printed in letters, digits and signs. -/
theorem Value.text_chars (value : Value) :
    ∀ c ∈ value.text.toList, isIdentifierRest c = true ∨ c = '-' := by
  cases value with
  | int number =>
    obtain ⟨digits, -, hdigits, htext⟩ := text_int number
    have hrest (c : Char) (hc : c ∈ digits) : isIdentifierRest c = true := by
      simp [isIdentifierRest, Char.isAlphanum, hdigits c hc]
    intro c hc
    rcases htext with htext | htext
    · exact .inl (hrest c (htext ▸ hc))
    · rw [htext] at hc
      exact (List.mem_cons.1 hc).symm.imp_left (hrest c)
  | bool truth =>
    have hletters : (bool truth).text.toList.all isIdentifierRest = true := by
      cases truth
      all_goals decide
    exact fun c hc => .inl (List.all_eq_true.1 hletters c hc)

/-! ## Terms that print like variables -/

/-- Numbers and truth values are printed without colons. -/
theorem Value.colon_notMem_text (value : Value) : ':' ∉ value.text.toList := by
  intro hcolon
  rcases value.text_chars _ hcolon with hrest | hsign
  · exact absurd hrest (by decide)
  · exact absurd hsign (by decide)

namespace Term

variable {scope : String} {term : Term}

/-- Applications end with a parenthesis, and so do abstractions over them. -/
theorem text_of_isCompound (h : term.BelongsTo scope) (hcompound : term.isCompound = true) :
    ∃ chars, term.text.toList = chars ++ [')'] := by
  induction term with
  | var leaf => cases hcompound
  | literal value => cases hcompound
  | app function argument _ _ =>
    exact ⟨_, by rw [text, String.toList_append]; rfl⟩
  | abs param body ih =>
    obtain ⟨chars, hchars⟩ := ih h.2.1 h.2.2
    refine ⟨("\\" ++ param.text ++ ". ").toList ++ chars, ?_⟩
    rw [text, String.toList_append, hchars, List.append_assoc]
  | letIn name bound body => exact h.elim

/-- Within the term of a function, only a variable prints like a variable of the function. -/
theorem eq_var_of_text (hscope : isIdentifier scope = true) (h : term.BelongsTo scope) {name : String}
    (htext : term.text = name ++ "::" ++ scope) : term = .var (.ofFunction name scope) := by
  have hchars : term.text.toList = name.toList ++ ([':', ':'] ++ scope.toList) := by
    rw [htext, String.toList_append, String.toList_append, List.append_assoc]
    rfl
  have hcolon : ':' ∈ term.text.toList := by simp [hchars]
  cases hcompound : term.isCompound with
  | true =>
    -- The last character of an identifier is no parenthesis.
    obtain ⟨chars, hparen⟩ := text_of_isCompound h hcompound
    obtain ⟨first, rest, hfirst, -, -⟩ := isIdentifier_chars hscope
    have hsuffix : scope.toList <:+ chars ++ [')'] := by
      rw [← hparen, hchars]
      exact (List.suffix_append _ _).trans (List.suffix_append _ _)
    have hmem : ')' ∈ scope.toList := by
      rcases List.suffix_concat_iff.1 hsuffix with hnil | ⟨front, hfront, -⟩
      · rw [hfirst] at hnil
        cases hnil
      · simp [hfront]
    exact absurd (isIdentifierRest_of_mem hscope hmem) (by decide)
  | false =>
    cases term with
    | var leaf =>
      obtain ⟨leafName, leafScope⟩ := leaf
      rcases h with hlocal | ⟨hglobal, hcolons⟩
      · obtain rfl : leafScope = some scope := hlocal
        have heq : leafName ++ "::" ++ scope = name ++ "::" ++ scope := htext
        rw [String.append_left_inj, String.append_left_inj] at heq
        rw [heq]
        rfl
      · obtain rfl : leafScope = none := hglobal
        refine absurd ?_ hcolons
        change leafName.toList = _ at hchars
        rw [hchars]
        exact ⟨name.toList, scope.toList, by simp⟩
    | literal value => exact absurd hcolon value.colon_notMem_text
    | app function argument => cases hcompound
    | abs param body => cases hcompound
    | letIn name bound body => exact h.elim

end Term

/-! ## Terms over identifiers and operators -/

/-- The names with a fixed meaning. -/
def operators : List String :=
  ["+", "-", "<", "<=", ">", ">=", "==", "!=", "&&", "||", "!", "if", "if-else", "while", ":=", ";",
    "return"]

theorem mem_operators {name : String} (h : isOperator name = true) : name ∈ operators := by
  unfold isOperator builtinType? schemeType? at h
  split at h
  all_goals first
    | decide
    | skip
  split at h
  all_goals first
    | decide
    | cases h

/--
A name that is printed so that it can be told apart from others.  A local one and its function are
spelled like identifiers, reserved words included; a global one is an operator, or spelled like an
identifier without being a truth value.
-/
def TermVar.IsReadable (var : TermVar) : Prop :=
  match var.scope with
  | some scope => hasIdentifierForm var.name = true ∧ hasIdentifierForm scope = true
  | none => isOperator var.name = true
      ∨ hasIdentifierForm var.name = true ∧ var.name ≠ "true" ∧ var.name ≠ "false"

instance TermVar.decidableIsReadable : (var : TermVar) → Decidable var.IsReadable
  | ⟨_, some _⟩ => inferInstanceAs (Decidable (_ ∧ _))
  | ⟨_, none⟩ => inferInstanceAs (Decidable (_ ∨ _))

/-- Identifiers are no truth values. -/
theorem TermVar.isReadable_global {name : String} (h : isIdentifier name = true) :
    (TermVar.global name).IsReadable := by
  refine .inr ⟨hasIdentifierForm_of_isIdentifier h, ?_, ?_⟩
  · rintro rfl
    exact absurd h (by decide +kernel)
  · rintro rfl
    exact absurd h (by decide +kernel)

/-- A term without definitions, the names of which can be told apart. -/
def Term.IsReadable : Term → Prop
  | .var leaf => leaf.IsReadable
  | .literal _ => True
  | .app function argument => function.IsReadable ∧ argument.IsReadable
  | .abs param body => param.IsReadable ∧ body.IsReadable
  | .letIn .. => False

instance Term.decidableIsReadable : (term : Term) → Decidable term.IsReadable
  | .var leaf => inferInstanceAs (Decidable leaf.IsReadable)
  | .literal _ => .isTrue trivial
  | .app function argument =>
    @instDecidableAnd _ _ function.decidableIsReadable argument.decidableIsReadable
  | .abs _ body => @instDecidableAnd _ _ inferInstance body.decidableIsReadable
  | .letIn .. => .isFalse id

theorem Term.Leaves.isReadable {term : Term} (h : term.Leaves TermVar.IsReadable) :
    term.IsReadable := by
  induction term with
  | var leaf => exact h
  | literal => trivial
  | app function argument ihf iha => exact ⟨ihf h.1, iha h.2⟩
  | abs param body ih => exact ⟨h.2.1, ih h.2.2⟩
  | letIn => exact h

/-! ### Where printed forms end -/

/-- A character that does not end a word. -/
def isPlain (c : Char) : Bool :=
  !"()\\. ".toList.contains c

/-- A text goes on with the end of a word, or not at all. -/
def EndsPlain (rest : List Char) : Prop :=
  ∀ c, rest.head? = some c → isPlain c = false

theorem isPlain_of_identifierRest {c : Char} (h : isIdentifierRest c = true) :
    isPlain c = true := by
  have hends : "()\\. ".toList.all (!isIdentifierRest ·) = true := by decide
  unfold isPlain
  rw [Bool.not_eq_true']
  by_contra hmem
  rw [Bool.not_eq_false, List.contains_iff_mem] at hmem
  have hnot := List.all_eq_true.1 hends c hmem
  rw [h] at hnot
  cases hnot

/-- Names are printed as words. -/
theorem TermVar.IsReadable.text_isPlain {var : TermVar} (h : var.IsReadable) :
    var.text.toList ≠ [] ∧ ∀ c ∈ var.text.toList, isPlain c = true := by
  obtain ⟨name, scope⟩ := var
  have hidentifier {name : String} (h : hasIdentifierForm name = true) :
      name.toList ≠ [] ∧ ∀ c ∈ name.toList, isPlain c = true := by
    obtain ⟨first, rest, hchars, -, -⟩ := hasIdentifierForm_iff.1 h
    exact ⟨by simp [hchars], fun c hc => isPlain_of_identifierRest (isIdentifierRest_of_form h hc)⟩
  cases scope with
  | some scope =>
    obtain ⟨hname, hscope⟩ := h
    change (name ++ "::" ++ scope).toList ≠ [] ∧ ∀ c ∈ (name ++ "::" ++ scope).toList, _
    rw [String.toList_append, String.toList_append]
    refine ⟨by simp, fun c hc => ?_⟩
    rcases List.mem_append.1 hc with hc | hc
    · rcases List.mem_append.1 hc with hc | hc
      · exact (hidentifier hname).2 c hc
      · have hcolons : "::".toList.all isPlain = true := by decide
        exact List.all_eq_true.1 hcolons c hc
    · exact (hidentifier hscope).2 c hc
  | none =>
    rcases h with h | ⟨h, -⟩
    · have hall : operators.all (fun name => !name.toList.isEmpty && name.toList.all isPlain)
          = true := by decide
      have hname := List.all_eq_true.1 hall name (mem_operators h)
      rw [Bool.and_eq_true, Bool.not_eq_true', List.isEmpty_eq_false_iff] at hname
      exact ⟨hname.1, List.all_eq_true.1 hname.2⟩
    · exact hidentifier h

/-- Names that print alike are equal. -/
theorem TermVar.IsReadable.text_inj {var other : TermVar} (h : var.IsReadable)
    (h' : other.IsReadable) (heq : var.text = other.text) : var = other := by
  have hglobal {name local_ scope : String}
      (h : (⟨name, none⟩ : TermVar).IsReadable) : name ≠ local_ ++ "::" ++ scope := by
    rintro rfl
    have hcolons : [':', ':'] <:+: (local_ ++ "::" ++ scope).toList := by
      rw [String.toList_append, String.toList_append]
      exact ⟨local_.toList, scope.toList, rfl⟩
    rcases h with h | ⟨h, -⟩
    · have hall : ∀ name ∈ operators, ¬ [':', ':'] <:+: name.toList := by decide +kernel
      exact hall _ (mem_operators h) hcolons
    · have hcolon := isIdentifierRest_of_form h (hcolons.subset List.mem_cons_self)
      exact absurd hcolon (by decide)
  obtain ⟨name, scope⟩ := var
  obtain ⟨name', scope'⟩ := other
  cases scope with
  | none =>
    cases scope' with
    | none =>
      obtain rfl : name = name' := heq
      rfl
    | some scope' => exact (hglobal h heq).elim
  | some scope =>
    cases scope' with
    | none => exact (hglobal h' heq.symm).elim
    | some scope' =>
      have hchars := congrArg String.toList heq
      change (name ++ "::" ++ scope).toList = (name' ++ "::" ++ scope').toList at hchars
      simp only [String.toList_append, List.append_assoc] at hchars
      have hcolon (scope : String) (c : Char) (hc : ("::".toList ++ scope.toList).head? = some c) :
          isIdentifierRest c = false := by
        obtain rfl : ':' = c := Option.some.inj hc
        decide
      obtain ⟨hname, hscope⟩ := append_inj_of_stop
        (fun _ hc => isIdentifierRest_of_form h.1 hc) (fun _ hc => isIdentifierRest_of_form h'.1 hc)
        (hcolon scope) (hcolon scope') hchars
      obtain rfl : name = name' := String.toList_inj.1 hname
      obtain rfl : scope = scope' := String.toList_inj.1 (List.append_cancel_left hscope)
      rfl

/-- No name prints like a literal. -/
theorem TermVar.IsReadable.text_ne_literal {var : TermVar} (h : var.IsReadable) (value : Value) :
    var.text ≠ value.text := by
  intro heq
  obtain ⟨name, scope⟩ := var
  cases scope with
  | some scope =>
    refine value.colon_notMem_text ?_
    rw [← heq]
    change ':' ∈ (name ++ "::" ++ scope).toList
    simp [String.toList_append]
  | none =>
    obtain rfl : name = value.text := heq
    rcases h with h | ⟨h, htrue, hfalse⟩
    · have hall : operators.all (fun name => !name.toList.any Char.isDigit) = true := by
        decide
      have hname := List.all_eq_true.1 hall _ (mem_operators h)
      cases value with
      | int number =>
        rw [Value.any_isDigit_text_int] at hname
        cases hname
      | bool truth =>
        cases truth
        all_goals exact absurd h (by decide)
    · cases value with
      | int number =>
        -- An identifier starts with a letter.
        obtain ⟨digits, hne, hdigits, htext⟩ := Value.text_int number
        obtain ⟨first, rest, hchars, hstart, -⟩ := hasIdentifierForm_iff.1 h
        obtain ⟨c, others, rfl⟩ := List.exists_cons_of_ne_nil hne
        rcases htext with htext | htext
        · rw [htext, List.cons.injEq] at hchars
          have hdigit := hdigits c List.mem_cons_self
          rw [hchars.1] at hdigit
          exact absurd hdigit (by simp [not_isDigit_of_start hstart])
        · rw [htext, List.cons.injEq] at hchars
          rw [← hchars.1] at hstart
          exact absurd hstart (by decide)
      | bool truth =>
        cases truth with
        | true => exact htrue rfl
        | false => exact hfalse rfl

namespace Term

/-! ### Terms that print alike -/

/-- Names and literals are printed as words. -/
theorem IsReadable.text_isPlain {term : Term} (h : term.IsReadable)
    (hatom : term.isCompound = false) :
    (∃ c chars, term.text.toList = c :: chars ∧ isPlain c = true)
      ∧ ∀ c ∈ term.text.toList, isPlain c = true := by
  have hplain : term.text.toList ≠ [] ∧ ∀ c ∈ term.text.toList, isPlain c = true := by
    cases term with
    | var leaf => exact TermVar.IsReadable.text_isPlain h
    | literal value =>
      refine ⟨fun hnil => ?_, fun c hc => ?_⟩
      · exact value.text_ne_nil hnil
      · rcases value.text_chars c hc with hrest | rfl
        · exact isPlain_of_identifierRest hrest
        · decide
    | app | abs => cases hatom
    | letIn => exact h.elim
  obtain ⟨c, chars, hchars⟩ := List.exists_cons_of_ne_nil hplain.1
  exact ⟨⟨c, chars, hchars, hplain.2 c (hchars ▸ List.mem_cons_self)⟩, hplain.2⟩

/-- Names and literals that print alike are equal. -/
theorem IsReadable.atom_inj {term other : Term} (h : term.IsReadable) (h' : other.IsReadable)
    (hatom : term.isCompound = false) (hatom' : other.isCompound = false)
    (heq : term.text = other.text) : term = other := by
  cases term with
  | var leaf =>
    cases other with
    | var leaf' => exact congrArg var (TermVar.IsReadable.text_inj h h' heq)
    | literal value => exact (TermVar.IsReadable.text_ne_literal h value heq).elim
    | app | abs => cases hatom'
    | letIn => exact h'.elim
  | literal value =>
    cases other with
    | var leaf => exact (TermVar.IsReadable.text_ne_literal h' value heq.symm).elim
    | literal value' => exact congrArg literal (Value.text_inj heq)
    | app | abs => cases hatom'
    | letIn => exact h'.elim
  | app | abs => cases hatom
  | letIn => exact h.elim

theorem text_app_toList (function argument : Term) (rest : List Char) :
    (app function argument).text.toList ++ rest
      = '(' :: (function.text.toList ++ ' ' :: (argument.text.toList ++ ')' :: rest)) := by
  simp [text, String.toList_append]

theorem text_abs_toList (param : TermVar) (body : Term) (rest : List Char) :
    (abs param body).text.toList ++ rest
      = '\\' :: (param.text.toList ++ '.' :: ' ' :: (body.text.toList ++ rest)) := by
  simp [text, String.toList_append]

theorem endsPlain_cons {c : Char} (rest : List Char) (h : isPlain c = false) :
    EndsPlain (c :: rest) :=
  fun _ hc => Option.some.inj hc ▸ h

/-- A printed form at the start of a text is that of one term only, and ends in one place only. -/
theorem text_append_inj {term other : Term} (h : term.IsReadable) (h' : other.IsReadable)
    {rest rest' : List Char} (hrest : EndsPlain rest) (hrest' : EndsPlain rest')
    (heq : term.text.toList ++ rest = other.text.toList ++ rest') :
    term = other ∧ rest = rest' := by
  -- What is printed first tells names and literals from applications and abstractions.
  have hatoms {term : Term} (h : term.IsReadable) (hatom : term.isCompound = false)
      {rest chars : List Char} {c : Char} (hc : isPlain c = false)
      (heq : term.text.toList ++ rest = c :: chars) : False := by
    obtain ⟨first, others, hchars, hfirst⟩ := (h.text_isPlain hatom).1
    rw [hchars, List.cons_append, List.cons.injEq] at heq
    rw [heq.1, hc] at hfirst
    cases hfirst
  induction term generalizing other rest rest' with
  | var | literal =>
    cases other with
    | var | literal =>
      obtain ⟨htext, hrests⟩ := append_inj_of_stop (h.text_isPlain rfl).2 (h'.text_isPlain rfl).2
        hrest hrest' heq
      exact ⟨h.atom_inj h' rfl rfl (String.toList_inj.1 htext), hrests⟩
    | app function argument =>
      rw [text_app_toList] at heq
      exact (hatoms h rfl (by decide) heq).elim
    | abs param body =>
      rw [text_abs_toList] at heq
      exact (hatoms h rfl (by decide) heq).elim
    | letIn => exact h'.elim
  | app function argument ihf iha =>
    rw [text_app_toList] at heq
    cases other with
    | var | literal => exact (hatoms h' rfl (by decide) heq.symm).elim
    | app function' argument' =>
      rw [text_app_toList, List.cons.injEq] at heq
      obtain ⟨rfl, hargument⟩ := ihf h.1 h'.1 (endsPlain_cons _ (by decide))
        (endsPlain_cons _ (by decide)) heq.2
      obtain ⟨rfl, hrests⟩ := iha h.2 h'.2 (endsPlain_cons _ (by decide))
        (endsPlain_cons _ (by decide)) (List.cons.inj hargument).2
      exact ⟨rfl, (List.cons.inj hrests).2⟩
    | abs param body =>
      rw [text_abs_toList, List.cons.injEq] at heq
      exact absurd heq.1 (by decide)
    | letIn => exact h'.elim
  | abs param body ih =>
    rw [text_abs_toList] at heq
    cases other with
    | var | literal => exact (hatoms h' rfl (by decide) heq.symm).elim
    | app function argument =>
      rw [text_app_toList, List.cons.injEq] at heq
      exact absurd heq.1 (by decide)
    | abs param' body' =>
      rw [text_abs_toList, List.cons.injEq] at heq
      obtain ⟨hparam, hbody⟩ := append_inj_of_stop h.1.text_isPlain.2 h'.1.text_isPlain.2
        (endsPlain_cons _ (by decide)) (endsPlain_cons _ (by decide)) heq.2
      obtain rfl := h.1.text_inj h'.1 (String.toList_inj.1 hparam)
      obtain ⟨rfl, hrests⟩ := ih h.2 h'.2 hrest hrest'
        (List.cons.inj (List.cons.inj hbody).2).2
      exact ⟨rfl, hrests⟩
    | letIn => exact h'.elim
  | letIn => exact h.elim

/-- Readable terms that print alike are equal. -/
theorem eq_of_text {term other : Term} (h : term.IsReadable) (h' : other.IsReadable)
    (heq : term.text = other.text) : term = other := by
  have hends : EndsPlain [] := nofun
  exact (text_append_inj h h' hends hends (by rw [heq])).1

end Term

/-! ## Reported types -/

theorem mem_of_mem_distinctByPrint {printed : List (String × Ty)} {pair : String × Ty}
    (h : pair ∈ distinctByPrint printed) : pair ∈ printed := by
  have hfold (rest kept : List (String × Ty))
      (hmem : pair ∈ rest.foldl
        (fun kept pair => if kept.any (·.1 = pair.1) then kept else kept ++ [pair]) kept) :
      pair ∈ kept ∨ pair ∈ rest := by
    induction rest generalizing kept with
    | nil => exact Or.inl hmem
    | cons first rest ih =>
      rw [List.foldl_cons] at hmem
      rcases ih _ hmem with hkept | hrest
      · split at hkept
        · exact Or.inl hkept
        · rcases List.mem_append.1 hkept with hkept | hfirst
          · exact Or.inl hkept
          · exact Or.inr (List.mem_singleton.1 hfirst ▸ List.mem_cons_self)
      · exact Or.inr (List.mem_cons_of_mem _ hrest)
  exact (hfold printed [] h).resolve_left nofun

/-- The printed forms of rows with the types that a solution gives to them. -/
def printedTypes (rows : List Subterm) (solution : Subst) : List (String × Ty) :=
  (rows.filter (!·.term.isLet)).map fun row => (row.term.text, solution.apply row.type)

/-- A type that is reported for a printed form is the type of a row. -/
theorem mem_of_typeOf? {report : FunctionTypes} {rows : List Subterm} {solution : Subst}
    (hreport : report.subterms = distinctByPrint (printedTypes rows solution)) {printed : String}
    {type : Ty} (h : report.typeOf? printed = some type) :
    ∃ row ∈ rows, row.term.text = printed ∧ solution.apply row.type = type := by
  rw [FunctionTypes.typeOf?, hreport] at h
  obtain ⟨before, after, heq, -⟩ := List.lookup_eq_some_iff.1 h
  have hmem : (printed, type) ∈ distinctByPrint (printedTypes rows solution) := by
    rw [heq]
    exact List.mem_append_right _ List.mem_cons_self
  obtain ⟨row, hrow, hpair⟩ := List.mem_map.1 (mem_of_mem_distinctByPrint hmem)
  cases hpair
  exact ⟨row, List.mem_of_mem_filter hrow, rfl, rfl⟩

/-- What is among rows is reported by its printed form. -/
theorem exists_lookup_distinctByPrint {printed : List (String × Ty)} {text : String}
    (h : text ∈ printed.map Prod.fst) :
    ∃ type, (distinctByPrint printed).lookup text = some type := by
  have hkeys (rest kept : List (String × Ty)) (hmem : text ∈ (kept ++ rest).map Prod.fst) :
      text ∈ (rest.foldl
        (fun kept pair => if kept.any (·.1 = pair.1) then kept else kept ++ [pair])
        kept).map Prod.fst := by
    induction rest generalizing kept with
    | nil => rwa [List.append_nil] at hmem
    | cons first rest ih =>
      rw [List.foldl_cons]
      refine ih _ ?_
      split
      · rename_i hany
        -- The first pair has the printed form of one that is kept.
        rw [List.map_append, List.map_cons, List.mem_append, List.mem_cons] at hmem
        rw [List.map_append, List.mem_append]
        obtain ⟨pair, hpair, heq⟩ := List.any_eq_true.1 hany
        rcases hmem with hkept | rfl | hrest
        · exact .inl hkept
        · exact .inl (of_decide_eq_true heq ▸ List.mem_map_of_mem hpair)
        · exact .inr hrest
      · rwa [List.append_assoc]
  have hmem : text ∈ (distinctByPrint printed).map Prod.fst := hkeys printed [] h
  obtain ⟨pair, hpair, rfl⟩ := List.mem_map.1 hmem
  cases hlookup : (distinctByPrint printed).lookup pair.1 with
  | some type => exact ⟨type, rfl⟩
  | none =>
    have hnone := List.lookup_eq_none_iff.1 hlookup pair hpair
    simp at hnone

/-- A report that is made from rows gives each of their terms the type of a row of that term. -/
theorem typeOf?_of_rows {report : FunctionTypes} {rows : List Subterm} {solution : Subst}
    (hreport : report.subterms = distinctByPrint (printedTypes rows solution))
    (hreadable : ∀ row ∈ rows, row.term.IsReadable) {term : Term}
    (hmem : term ∈ rows.map (·.term)) :
    ∃ row ∈ rows, row.term = term ∧ report.typeOf? term.text = some (solution.apply row.type) := by
  obtain ⟨listed, hlisted, rfl⟩ := List.mem_map.1 hmem
  have hlet : listed.term.isLet = false := by
    have hterm := hreadable listed hlisted
    cases hkind : listed.term with
    | letIn => exact (hkind ▸ hterm).elim
    | var | literal | app | abs => rfl
  have hprinted : listed.term.text ∈ (printedTypes rows solution).map Prod.fst :=
    List.mem_map.2
      ⟨_, List.mem_map_of_mem (List.mem_filter.2 ⟨hlisted, by simp [hlet]⟩), rfl⟩
  obtain ⟨type, htype⟩ := exists_lookup_distinctByPrint hprinted
  rw [← hreport] at htype
  -- The row that is reported prints like the given one, so it is one of the same term.
  obtain ⟨row, hrow, htext, rfl⟩ := mem_of_typeOf? hreport htype
  have hterm := Term.eq_of_text (hreadable row hrow) (hreadable listed hlisted) htext
  exact ⟨row, hrow, hterm, htype⟩

end WhileLang

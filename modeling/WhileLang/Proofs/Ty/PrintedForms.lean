import WhileLang.Proofs.Token.Scanning
import WhileLang.Ty.Subst

/-!
# Printed forms of types

Errors and reports carry types in their printed form only.  It says which type was meant: a variable
starts with a quote, a domain with parentheses around it is an arrow, and so the arrow at which a
printed type has to be divided is found by reading its domain.

Main definitions:

- Functions {lit}`isPlainName` and {lit}`Ty.hasPlainNames`: names without quotes, spaces,
  parentheses and parts of arrows.
- Predicate {lit}`Ty.Determined`: where a printed form ends, and which type it is that of.

Main results:

- Theorem {lit}`Ty.determined`: this is so for all types with plain names.
- Theorem {lit}`Ty.text_unambiguous`: types that print alike are equal.
-/

namespace WhileLang

/-! ## Words -/

/-- A character of the words that types are printed in. -/
def isTypeWord (c : Char) : Bool :=
  !" ()->".toList.contains c

/-- A name that is not empty, and has no quotes, spaces, parentheses or parts of arrows in it. -/
def isPlainName (name : String) : Bool :=
  !name.toList.isEmpty && name.toList.all fun c => isTypeWord c && c ≠ '\''

theorem isPlainName_iff {name : String} : isPlainName name = true ↔
    name.toList ≠ [] ∧ ∀ c ∈ name.toList, isTypeWord c = true ∧ c ≠ '\'' := by
  simp [isPlainName]

namespace Ty

/-- All names in a type are plain. -/
def hasPlainNames : Ty → Bool
  | .var name => isPlainName name
  | .con name => isPlainName name
  | .arrow domain codomain => domain.hasPlainNames && codomain.hasPlainNames

variable {type other : Ty} {rest rest' : List Char}

/-- Variables and constructors are printed as words. -/
theorem text_isTypeWord (h : type.hasPlainNames = true) (hatom : type.isArrow = false) :
    type.text.toList ≠ [] ∧ ∀ c ∈ type.text.toList, isTypeWord c = true := by
  cases type with
  | var name =>
    obtain ⟨-, hname⟩ := isPlainName_iff.1 h
    have htext : (Ty.var name).text.toList = '\'' :: name.toList := by simp [text, varText]
    rw [htext]
    exact ⟨List.cons_ne_nil _ _, List.forall_mem_cons.2 ⟨by decide, fun c hc => (hname c hc).1⟩⟩
  | con name =>
    obtain ⟨hne, hname⟩ := isPlainName_iff.1 h
    exact ⟨hne, fun c hc => (hname c hc).1⟩
  | arrow => cases hatom

/-- Variables and constructors that print alike are equal: only variables start with a quote. -/
theorem atom_inj (h : type.hasPlainNames = true) (h' : other.hasPlainNames = true)
    (hatom : type.isArrow = false) (hatom' : other.isArrow = false)
    (heq : type.text = other.text) : type = other := by
  have hquote {name constructor : String} (hplain : isPlainName constructor = true) :
      varText name ≠ constructor := by
    rintro rfl
    obtain ⟨-, hname⟩ := isPlainName_iff.1 hplain
    exact (hname '\'' (by simp [varText])).2 rfl
  cases type with
  | var name =>
    cases other with
    | var name' => exact congrArg var ((String.append_right_inj _).1 heq)
    | con name' => exact (hquote h' heq).elim
    | arrow => cases hatom'
  | con name =>
    cases other with
    | var name' => exact (hquote h heq.symm).elim
    | con name' => exact congrArg con heq
    | arrow => cases hatom'
  | arrow => cases hatom

/-- Variables and constructors are told apart where words end. -/
theorem atom_append_inj (h : type.hasPlainNames = true) (h' : other.hasPlainNames = true)
    (hatom : type.isArrow = false) (hatom' : other.isArrow = false)
    (hrest : ∀ c, rest.head? = some c → isTypeWord c = false)
    (hrest' : ∀ c, rest'.head? = some c → isTypeWord c = false)
    (heq : type.text.toList ++ rest = other.text.toList ++ rest') :
    type = other ∧ rest = rest' := by
  obtain ⟨htext, hrests⟩ := append_inj_of_stop (text_isTypeWord h hatom).2
    (text_isTypeWord h' hatom').2 hrest hrest' heq
  exact ⟨atom_inj h h' hatom hatom' (String.toList_inj.1 htext), hrests⟩

/-! ## Where printed forms end -/

/-- A text goes on with a parenthesis that is closed, or not at all. -/
def EndsType (rest : List Char) : Prop :=
  ∀ c, rest.head? = some c → c = ')'

theorem EndsType.isTypeWord_eq_false (h : EndsType rest) (c : Char) (hc : rest.head? = some c) :
    isTypeWord c = false := by
  rw [h c hc]
  decide

/-- A printed form at the start of a text is that of a type only, and ends in one place only. -/
def Determined (type : Ty) : Prop :=
  ∀ {other : Ty} {rest rest' : List Char}, other.hasPlainNames = true → EndsType rest →
    EndsType rest' → type.text.toList ++ rest = other.text.toList ++ rest' →
      type = other ∧ rest = rest'

/-- A type as it is printed in front of an arrow. -/
def domainChars (domain : Ty) : List Char :=
  if domain.isArrow then '(' :: (domain.text.toList ++ [')']) else domain.text.toList

theorem text_arrow_toList (domain codomain : Ty) (rest : List Char) :
    (arrow domain codomain).text.toList ++ rest
      = domain.domainChars ++ (" -> ".toList ++ (codomain.text.toList ++ rest)) := by
  rw [text, domainChars]
  split
  · simp [String.toList_append]
  · simp [String.toList_append]

theorem domainChars_of_atom (hatom : type.isArrow = false) :
    type.domainChars = type.text.toList := by
  rw [domainChars, hatom]
  rfl

/--
A domain is told apart from other domains, and from what stands behind it, if this is so for its
printed form wherever it is put in parentheses.
-/
theorem domainChars_append_inj (hdetermined : type.isArrow = true → type.Determined)
    (h : type.hasPlainNames = true) (h' : other.hasPlainNames = true)
    (hrest : ∀ c, rest.head? = some c → isTypeWord c = false)
    (hrest' : ∀ c, rest'.head? = some c → isTypeWord c = false)
    (heq : type.domainChars ++ rest = other.domainChars ++ rest') :
    type = other ∧ rest = rest' := by
  -- A word does not start with a parenthesis.
  have hparen {type other : Ty} (h : type.hasPlainNames = true) (hatom : type.isArrow = false)
      (harrow : other.isArrow = true) {rest rest' : List Char} :
      type.domainChars ++ rest ≠ other.domainChars ++ rest' := by
    intro heq
    obtain ⟨hne, hword⟩ := text_isTypeWord h hatom
    obtain ⟨c, chars, hchars⟩ := List.exists_cons_of_ne_nil hne
    have hc := hword c (hchars ▸ List.mem_cons_self)
    rw [domainChars_of_atom hatom, hchars, domainChars, if_pos harrow, List.cons_append,
      List.cons_append, List.cons.injEq] at heq
    rw [heq.1] at hc
    exact absurd hc (by decide)
  cases harrow : type.isArrow with
  | false =>
    cases harrow' : other.isArrow with
    | false =>
      rw [domainChars_of_atom harrow, domainChars_of_atom harrow'] at heq
      exact atom_append_inj h h' harrow harrow' hrest hrest' heq
    | true => exact (hparen h harrow harrow' heq).elim
  | true =>
    cases harrow' : other.isArrow with
    | false => exact (hparen h' harrow' harrow heq.symm).elim
    | true =>
      have hclosed (rest : List Char) : EndsType (')' :: rest) :=
        fun _ hc => (Option.some.inj hc).symm
      rw [domainChars, if_pos harrow, domainChars, if_pos harrow', List.cons_append,
        List.cons_append, List.append_assoc, List.append_assoc] at heq
      obtain ⟨hsame, hrests⟩ := hdetermined harrow h' (hclosed rest) (hclosed rest')
        (List.cons.inj heq).2
      exact ⟨hsame, (List.cons.inj hrests).2⟩

/-- Where the printed form of a type with plain names ends, and which type it is that of. -/
theorem determined (h : type.hasPlainNames = true) : type.Determined := by
  have harrow (codomain : Ty) (rest : List Char) (c : Char)
      (hc : (" -> ".toList ++ (codomain.text.toList ++ rest)).head? = some c) :
      isTypeWord c = false := by
    obtain rfl : ' ' = c := Option.some.inj hc
    decide
  -- Where a word ends the type, no arrow follows.
  have hatoms {type domain codomain : Ty} {rest rest' : List Char} (h : type.hasPlainNames = true)
      (hdomain : domain.hasPlainNames = true) (hatom : type.isArrow = false)
      (hrest : EndsType rest)
      (heq : type.text.toList ++ rest = (arrow domain codomain).text.toList ++ rest') : False := by
    rw [text_arrow_toList, ← domainChars_of_atom hatom] at heq
    obtain ⟨-, hrests⟩ := domainChars_append_inj (fun htrue => nomatch hatom.symm.trans htrue) h
      hdomain hrest.isTypeWord_eq_false (harrow codomain rest') heq
    exact absurd (hrest ' ' (hrests ▸ rfl)) (by decide)
  induction type with
  | var | con =>
    intro other rest rest' h' hrest hrest' heq
    cases other with
    | var | con =>
      exact atom_append_inj h h' rfl rfl hrest.isTypeWord_eq_false hrest'.isTypeWord_eq_false heq
    | arrow domain codomain => exact (hatoms h (Bool.and_eq_true_iff.1 h').1 rfl hrest heq).elim
  | arrow domain codomain ihd ihc =>
    intro other rest rest' h' hrest hrest' heq
    obtain ⟨hdomain, hcodomain⟩ := Bool.and_eq_true_iff.1 h
    cases other with
    | var | con => exact (hatoms h' hdomain rfl hrest' heq.symm).elim
    | arrow domain' codomain' =>
      obtain ⟨hdomain', hcodomain'⟩ := Bool.and_eq_true_iff.1 h'
      rw [text_arrow_toList, text_arrow_toList] at heq
      obtain ⟨rfl, hcodomains⟩ := domainChars_append_inj (fun _ => ihd hdomain) hdomain hdomain'
        (harrow codomain rest) (harrow codomain' rest') heq
      obtain ⟨rfl, hrests⟩ := ihc hcodomain hcodomain' hrest hrest'
        (List.append_cancel_left hcodomains)
      exact ⟨rfl, hrests⟩

/-- Types with plain names that print alike are equal, however their arrows are nested. -/
theorem text_unambiguous (h : type.hasPlainNames = true) (h' : other.hasPlainNames = true)
    (heq : type.text = other.text) : type = other := by
  have hends : EndsType [] := nofun
  exact (determined h h' hends hends (by rw [heq])).1

/-- An arrow that is put in the place of a variable, on either side of an arrow. -/
def substituted : Ty :=
  Subst.apply ⟨[("a", .arrow .int (.var "b"))]⟩ (.arrow (.arrow (.var "a") (.var "a")) (.var "a"))

/-- The same type in full: `((Int -> 'b) -> Int -> 'b) -> Int -> 'b`. -/
def expanded : Ty :=
  .arrow (.arrow (.arrow .int (.var "b")) (.arrow .int (.var "b"))) (.arrow .int (.var "b"))

/-- A type with arrows in a codomain, in a domain, and in the domain and the codomain of that. -/
theorem text_unambiguous_substituted :
    (substituted.hasPlainNames = true ∧ expanded.hasPlainNames = true) ∧
      substituted.text = expanded.text ∧ substituted = expanded := by
  have hplain : substituted.hasPlainNames = true := by decide +kernel
  have hplain' : expanded.hasPlainNames = true := by decide +kernel
  have htext : substituted.text = expanded.text := by decide +kernel
  exact ⟨⟨hplain, hplain'⟩, htext, text_unambiguous hplain hplain' htext⟩

end Ty

end WhileLang

import WhileLang.Proofs.Grammar.Coherence
import WhileLang.Proofs.Grammar.Printed

/-!
# Phrases spell canonical trees

Whatever a phrase spells has the shape of its category, its names stand in the phrase, and its
chains are nested to the left.

Main definitions:

- Predicate {lit}`Shapes`: the phrases of a language up to a length have a shape.

Main results:

- Theorems {lit}`shapes_expression`, {lit}`shapes_block` and {lit}`shapes_program`.
-/

namespace WhileLang

/-- The shape of what a phrase spells, all names of which stand in the phrase. -/
structure HasShape (shape : Bool) (names : List String) (lexemes : List Lexeme) : Prop where
  shape : shape = true
  names {name : String} : name ∈ names → .identifier name ∈ lexemes

theorem HasShape.mono {shape : Bool} {names : List String} {lexemes lexemes' : List Lexeme}
    (h : HasShape shape names lexemes) (hlexemes : ∀ lexeme ∈ lexemes, lexeme ∈ lexemes') :
    HasShape shape names lexemes' :=
  ⟨h.shape, fun hname => hlexemes _ (h.names hname)⟩

theorem HasShape.and {shape shape' : Bool} {names names' : List String}
    {lexemes lexemes' : List Lexeme} (h : HasShape shape names lexemes)
    (h' : HasShape shape' names' lexemes') :
    HasShape (shape && shape') (names ++ names') (lexemes ++ lexemes') := by
  refine ⟨Bool.and_eq_true_iff.2 ⟨h.shape, h'.shape⟩, fun hname => ?_⟩
  rw [List.mem_append] at hname ⊢
  exact hname.imp h.names h'.names

/-- The shape, names and lexemes of a single name. -/
theorem HasShape.name (name : String) : HasShape true [name] [.identifier name] := by
  refine ⟨rfl, fun hname => ?_⟩
  rw [List.mem_singleton] at hname ⊢
  rw [hname]

/-- All phrases of a language below a length spell trees of a shape. -/
def Shapes {α : Type} (names : α → List String) (bound : Nat) (language : Language α)
    (shape : α → Bool) : Prop :=
  ∀ u tree, language u tree → u.length < bound → HasShape (shape tree) (names tree) u

namespace Shapes

/-! ## Chains and lists -/

section

variable {α : Type} {names : α → List String} {bound : Nat} {items : Language α}
  {operators : Language (α → α → α)} {itemShape shape : α → Bool}

/-- Chains have a shape that the items have and that the operators keep. -/
theorem chain (h : Shapes names bound items itemShape)
    (hitem : ∀ item, itemShape item = true → shape item = true)
    (hoperators : ∀ u combine left right, operators u combine →
      (shape left = true → itemShape right = true → shape (combine left right) = true)
        ∧ names (combine left right) = names left ++ names right) :
    Shapes names bound (Chain items operators) shape := by
  have hfrom : ∀ {folded tree : α} {v w : List Lexeme},
      ChainFrom items operators folded w tree → w.length < bound →
        HasShape (shape folded) (names folded) v →
          HasShape (shape tree) (names tree) (v ++ w) := by
    intro folded tree v w hchain hbound hfolded
    induction hchain generalizing v with
    | stop => rwa [List.append_nil]
    | @round folded next _ combine x y z hx hy _ ih =>
      rw [List.length_append, List.length_append] at hbound
      obtain ⟨hshape, hnames⟩ := hoperators x combine folded next hx
      have hnext := h y next hy (by omega)
      have hboth : HasShape (shape (combine folded next)) (names (combine folded next))
          (v ++ (x ++ y)) := by
        refine ⟨hshape hfolded.shape hnext.shape, fun hname => ?_⟩
        rw [hnames] at hname
        rw [List.mem_append, List.mem_append]
        exact (List.mem_append.1 hname).imp hfolded.names (fun hmem => .inr (hnext.names hmem))
      have hall := ih (by omega) hboth
      rwa [List.append_assoc, List.append_assoc] at hall
  intro u tree hchain hbound
  cases hchain with
  | @intro first _ v w hfirst hrest =>
    rw [List.length_append] at hbound
    have hfirst := h v first hfirst (by omega)
    exact hfrom hrest (by omega) ⟨hitem first hfirst.shape, hfirst.names⟩

end

/-- Arguments have the shape of expressions. -/
theorem separatedBy {bound : Nat} {items : Language Expr}
    (h : Shapes Expr.names bound items Expr.hasShape) {u : List Lexeme} {args : List Expr}
    (hargs : SeparatedBy .comma items u args) (hbound : u.length < bound) :
    HasShape (haveShapes args) (Expr.names.namesOfArgs args) u := by
  induction hargs with
  | one hitem =>
    have hfirst := h _ _ hitem hbound
    rw [haveShapes, haveShapes, Bool.and_true, Expr.names.namesOfArgs, Expr.names.namesOfArgs,
      List.append_nil]
    exact hfirst
  | cons hitem _ ih =>
    rw [List.length_append, List.length_cons] at hbound
    have hfirst := h _ _ hitem (by omega)
    refine (hfirst.and (ih (by omega))).mono fun lexeme hmem => ?_
    rw [List.mem_append] at hmem ⊢
    exact hmem.imp_right (List.mem_cons_of_mem _)

end Shapes

/-! ## Expressions -/

/-- Both kinds of expressions have their shapes in phrases below a length. -/
structure ShapesBelow (bound : Nat) : Prop where
  arithmetic : Shapes Expr.names bound Phrase.Arithmetic Expr.isArithmetic
  logic : Shapes Expr.names bound Phrase.Logic Expr.isLogical

namespace ShapesBelow

variable {bound : Nat}

theorem expression (h : ShapesBelow bound) :
    Shapes Expr.names bound Phrase.Expression Expr.hasShape := by
  intro u tree hexpression hbound
  cases hexpression with
  | logic hu =>
    have hshape := h.logic u tree hu hbound
    exact ⟨Bool.or_eq_true_iff.2 (.inr hshape.shape), hshape.names⟩
  | arithmetic hu =>
    have hshape := h.arithmetic u tree hu hbound
    exact ⟨Bool.or_eq_true_iff.2 (.inl hshape.shape), hshape.names⟩

/-- The shape of a call is that of its arguments, whichever kind of expression it stands for. -/
theorem call (h : ShapesBelow bound) {shape : Expr → Bool}
    (hshape : ∀ name args, shape (.call name args) = haveShapes args) :
    Shapes Expr.names (bound + 1) Phrase.Call shape := by
  intro u tree hcall hbound
  obtain @⟨name, u, args, hargs⟩ := hcall
  have hshapes : HasShape (haveShapes args) (Expr.names.namesOfArgs args) u := by
    cases hargs with
    | none => exact ⟨rfl, nofun⟩
    | some hargs =>
      simp only [List.length_cons, List.length_append, List.length_nil] at hbound
      exact h.expression.separatedBy hargs (by omega)
  rw [hshape, Expr.names]
  refine ⟨hshapes.shape, fun hname => ?_⟩
  cases hname with
  | head => exact List.mem_cons_self
  | tail _ hname =>
    exact List.mem_cons_of_mem _
      (List.mem_cons_of_mem _ (List.mem_append_left _ (hshapes.names hname)))

/-- What is in parentheses keeps its shape. -/
theorem group {language : Language Expr} {shape : Expr → Bool}
    (h : Shapes Expr.names bound language shape) {u : List Lexeme} {tree : Expr}
    (hu : language u tree)
    (hbound : (Lexeme.reserved .leftParen :: (u ++ [.reserved .rightParen])).length < bound + 1) :
    HasShape (shape tree) tree.names (.reserved .leftParen :: (u ++ [.reserved .rightParen])) := by
  simp only [List.length_cons, List.length_append, List.length_nil] at hbound
  exact (h u tree hu (by omega)).mono fun lexeme hmem =>
    List.mem_cons_of_mem _ (List.mem_append_left _ hmem)

theorem arithmetic_succ (h : ShapesBelow bound) :
    Shapes Expr.names (bound + 1) Phrase.Arithmetic Expr.isArithmetic := by
  have hoperand : Shapes Expr.names (bound + 1) Phrase.ArithmeticOperand Expr.isArithmetic := by
    intro u tree hoperand hbound
    cases hoperand with
    | call hcall => exact h.call (fun _ _ => rfl) u tree hcall hbound
    | term hterm =>
      cases hterm with
      | number hnumber => cases hnumber <;> exact ⟨rfl, nofun⟩
      | var name => exact .name name
      | group hgroup => exact group h.arithmetic hgroup hbound
  have hchain : Shapes Expr.names (bound + 1) (Chain Phrase.ArithmeticOperand Phrase.MathOperator)
      Expr.isArithmetic :=
    hoperand.chain (fun _ h => h) fun u combine left right hop => by
      cases hop <;> exact ⟨fun hleft hright => Bool.and_eq_true_iff.2 ⟨hleft, hright⟩, rfl⟩
  intro u tree harithmetic hbound
  cases harithmetic with
  | chain hu => exact hchain u tree hu hbound

theorem comparison (h : Shapes Expr.names (bound + 1) Phrase.Arithmetic Expr.isArithmetic) :
    Shapes Expr.names (bound + 1) Phrase.Comparison Expr.isLogical := by
  intro u tree hcomparison hbound
  obtain @⟨u, v, w, left, right, op, hu, hv, hw⟩ := hcomparison
  rw [List.length_append, List.length_append] at hbound
  refine ((h u left hu (by omega)).and (h w right hw (by omega))).mono fun lexeme hmem => ?_
  simp only [List.mem_append] at hmem ⊢
  exact hmem.imp_right .inr

theorem logicTerm (h : ShapesBelow bound) :
    Shapes Expr.names (bound + 1) Phrase.LogicTerm Expr.isLogical := by
  intro u tree hterm hbound
  induction u generalizing tree with
  | nil =>
    obtain ⟨_, _, heq, _⟩ := Phrase.startsWith_logicTerm [] tree hterm
    cases heq
  | cons lexeme v ih =>
    by_cases hnot : lexeme = .reserved .logicalNot
    · subst hnot
      obtain ⟨negated, rfl, hnegated⟩ := hterm.of_not
      exact (ih negated hnegated (Nat.lt_of_succ_lt hbound)).mono fun _ => List.mem_cons_of_mem _
    · cases hterm with
      | boolean hboolean => cases hboolean <;> exact ⟨rfl, nofun⟩
      | comparison hcomparison => exact comparison h.arithmetic_succ _ _ hcomparison hbound
      | not => exact absurd rfl hnot
      | var name => exact .name name
      | group hgroup => exact group h.logic hgroup hbound

theorem logic_succ (h : ShapesBelow bound) :
    Shapes Expr.names (bound + 1) Phrase.Logic Expr.isLogical := by
  have hoperand : Shapes Expr.names (bound + 1) Phrase.LogicOperand Expr.isLogical := by
    intro u tree hoperand hbound
    cases hoperand with
    | call hcall => exact h.call (fun _ _ => rfl) u tree hcall hbound
    | term hterm => exact h.logicTerm u tree hterm hbound
  have hchain : Shapes Expr.names (bound + 1) (Chain Phrase.LogicOperand Phrase.LogicOperator)
      Expr.isLogical :=
    hoperand.chain (fun _ h => h) fun u combine left right hop => by
      cases hop <;> exact ⟨fun hleft hright => Bool.and_eq_true_iff.2 ⟨hleft, hright⟩, rfl⟩
  intro u tree hlogic hbound
  cases hlogic with
  | chain hu => exact hchain u tree hu hbound

end ShapesBelow

theorem shapesBelow (bound : Nat) : ShapesBelow bound := by
  induction bound with
  | zero =>
    exact {
      arithmetic := fun _ _ _ hbound => absurd hbound (Nat.not_lt_zero _)
      logic := fun _ _ _ hbound => absurd hbound (Nat.not_lt_zero _) }
  | succ bound ih => exact { arithmetic := ih.arithmetic_succ, logic := ih.logic_succ }

theorem shapes_logic {u : List Lexeme} {tree : Expr} (h : Phrase.Logic u tree) :
    HasShape tree.isLogical tree.names u :=
  (shapesBelow (u.length + 1)).logic u tree h (Nat.lt_succ_self _)

/-- What an expression spells is arithmetic or logical throughout. -/
theorem shapes_expression {u : List Lexeme} {tree : Expr} (h : Phrase.Expression u tree) :
    HasShape tree.hasShape tree.names u :=
  (shapesBelow (u.length + 1)).expression u tree h (Nat.lt_succ_self _)

/-! ## Statements -/

namespace Stmt

/-- The shape of a block with its chains nested to the left, as the grammar nests them. -/
def hasNestedShape (stmt : Stmt) : Bool :=
  stmt.hasShape && stmt.isLeftNested

theorem hasNestedShape_iff {stmt : Stmt} :
    stmt.hasNestedShape = true ↔ stmt.hasShape = true ∧ stmt.isLeftNested = true :=
  Bool.and_eq_true_iff

/-- A statement of a block, which is no chain itself. -/
def isItem (stmt : Stmt) : Bool :=
  stmt.hasNestedShape && !stmt.isSeq

theorem isItem_iff {stmt : Stmt} :
    stmt.isItem = true ↔ stmt.hasNestedShape = true ∧ stmt.isSeq = false := by
  rw [isItem, Bool.and_eq_true, Bool.not_eq_true']

theorem hasNestedShape_seq {first second : Stmt} (hfirst : first.hasNestedShape = true)
    (hsecond : second.isItem = true) : (Stmt.seq first second).hasNestedShape = true := by
  rw [isItem_iff, hasNestedShape_iff] at hsecond
  rw [hasNestedShape_iff] at hfirst ⊢
  simp only [hasShape, isLeftNested, hfirst, hsecond, Bool.and_true, Bool.not_false, and_self]

end Stmt

theorem shapes_statement {bound : Nat}
    (hblock : Shapes Stmt.names bound Phrase.Block Stmt.hasNestedShape) :
    Shapes Stmt.names (bound + 1) Phrase.Statement Stmt.isItem := by
  intro u stmt hstatement hbound
  cases hstatement with
  | @assign name v value hvalue =>
    have hvalue := shapes_expression hvalue
    refine ⟨?_, fun hname => ?_⟩
    · rw [Stmt.isItem_iff, Stmt.hasNestedShape_iff]
      exact ⟨⟨hvalue.shape, rfl⟩, rfl⟩
    · cases hname with
      | head => exact List.mem_cons_self
      | tail _ hname =>
        exact List.mem_cons_of_mem _ (List.mem_cons_of_mem _ (hvalue.names hname))
  | @ifThen v w condition body hcondition hbody | @loop v w condition body hcondition hbody =>
    simp only [List.length_cons, List.length_append, List.length_nil] at hbound
    have hcondition := shapes_logic hcondition
    have hbody := hblock w body hbody (by omega)
    have hboth := hcondition.and hbody
    refine ⟨?_, fun hname => ?_⟩
    · have hshape := Stmt.hasNestedShape_iff.1 hbody.shape
      rw [Stmt.isItem_iff, Stmt.hasNestedShape_iff]
      exact ⟨⟨Bool.and_eq_true_iff.2 ⟨hcondition.shape, hshape.1⟩, hshape.2⟩, rfl⟩
    · have hmem := hboth.names hname
      simp only [List.mem_cons, List.mem_append] at hmem ⊢
      tauto
  | @ifElse v w x condition body alternative hcondition hbody halternative =>
    simp only [List.length_cons, List.length_append, List.length_nil] at hbound
    have hcondition := shapes_logic hcondition
    have hbody := hblock w body hbody (by omega)
    have halternative := hblock x alternative halternative (by omega)
    have hall := hcondition.and (hbody.and halternative)
    refine ⟨?_, fun hname => ?_⟩
    · have hshape := Stmt.hasNestedShape_iff.1 hbody.shape
      have hshape' := Stmt.hasNestedShape_iff.1 halternative.shape
      rw [Stmt.isItem_iff, Stmt.hasNestedShape_iff]
      simp only [Stmt.hasShape, Stmt.isLeftNested, Stmt.isSeq, hcondition.shape, hshape, hshape',
        Bool.and_self, and_self]
    · have hmem := hall.names hname
      simp only [List.mem_cons, List.mem_append] at hmem ⊢
      tauto

theorem shapes_block_below (bound : Nat) :
    Shapes Stmt.names bound Phrase.Block Stmt.hasNestedShape := by
  induction bound with
  | zero => exact fun _ _ _ hbound => absurd hbound (Nat.not_lt_zero _)
  | succ bound ih =>
    have hchain : Shapes Stmt.names (bound + 1) (Chain Phrase.Statement Phrase.Semicolon)
        Stmt.hasNestedShape := by
      refine (shapes_statement ih).chain (fun _ h => (Stmt.isItem_iff.1 h).1) ?_
      intro u combine left right hop
      cases hop
      exact ⟨Stmt.hasNestedShape_seq, rfl⟩
    intro u stmt hblock hbound
    cases hblock with
    | chain hu => exact hchain u stmt hu hbound

/-- What a block spells has its shape, and all chains in it are nested to the left. -/
theorem shapes_block {u : List Lexeme} {stmt : Stmt} (h : Phrase.Block u stmt) :
    HasShape stmt.hasNestedShape stmt.names u :=
  shapes_block_below (u.length + 1) u stmt h (Nat.lt_succ_self _)

/-! ## Functions and programs -/

/-- The shape of a function with the chains of its body nested to the left. -/
def FunctionDef.hasNestedShape (function : FunctionDef) : Bool :=
  function.hasShape && function.isLeftNested

theorem names_separatedBy {u : List Lexeme} {params : List String}
    (h : SeparatedBy .comma Phrase.Identifier u params) {name : String} (hname : name ∈ params) :
    .identifier name ∈ u := by
  induction h with
  | one hitem =>
    cases hitem
    rw [List.mem_singleton] at hname ⊢
    rw [hname]
  | @cons v w value values hitem _ ih =>
    cases hitem
    rw [List.mem_append]
    cases hname with
    | head => exact .inl List.mem_cons_self
    | tail _ hname => exact .inr (List.mem_cons_of_mem _ (ih hname))

theorem shapes_body {u : List Lexeme} {body : Option Stmt} (h : Phrase.Body u body) :
    HasShape (body.elim true Stmt.hasNestedShape) (body.elim [] Stmt.names) u := by
  cases h with
  | none | noneSemicolon => exact ⟨rfl, nofun⟩
  | block hblock => exact shapes_block hblock
  | blockSemicolon hblock => exact (shapes_block hblock).mono fun _ => List.mem_append_left _

theorem shapes_function {u : List Lexeme} {function : FunctionDef}
    (h : Phrase.Function u function) : HasShape function.hasNestedShape function.names u := by
  cases h with
  | @intro name v w x params body result hparams hbody hresult =>
    have hbody := shapes_body hbody
    have hresult := shapes_expression hresult
    have hparams : ∀ {param : String}, param ∈ params → .identifier param ∈ v := by
      intro param hmem
      cases hparams with
      | none => cases hmem
      | some hparams => exact names_separatedBy hparams hmem
    refine ⟨?_, fun {other} hother => ?_⟩
    · have hresult := hresult.shape
      cases body with
      | none => exact Bool.and_eq_true_iff.2 ⟨hresult, rfl⟩
      | some body =>
        have hshape := Stmt.hasNestedShape_iff.1 hbody.shape
        exact Bool.and_eq_true_iff.2 ⟨Bool.and_eq_true_iff.2 ⟨hshape.1, hresult⟩, hshape.2⟩
    · have hmem : other = name ∨ .identifier other ∈ v ∨ .identifier other ∈ w ∨
          .identifier other ∈ x := by
        rw [FunctionDef.names, List.mem_cons, List.mem_append, List.mem_append] at hother
        exact hother.imp_right (Or.imp hparams (Or.imp hbody.names hresult.names))
      simp only [List.mem_cons, List.mem_append, Lexeme.identifier.injEq]
      tauto

theorem shapes_functions {u : List Lexeme} {functions : List FunctionDef}
    (h : SeparatedBy .semicolon Phrase.Function u functions) :
    HasShape (functions.all FunctionDef.hasNestedShape)
      (functions.flatMap FunctionDef.names) u := by
  induction h with
  | one hitem =>
    rw [List.all_cons, List.all_nil, Bool.and_true, List.flatMap_singleton]
    exact shapes_function hitem
  | cons hitem _ ih =>
    rw [List.all_cons, List.flatMap_cons]
    refine ((shapes_function hitem).and ih).mono fun lexeme hmem => ?_
    rw [List.mem_append] at hmem ⊢
    exact hmem.imp_right (List.mem_cons_of_mem _)

/-- The shape of a program with all chains nested to the left. -/
def Program.hasNestedShape (program : Program) : Bool :=
  program.hasShape && program.isLeftNested

/-- What a program spells has its shape, and all chains in it are nested to the left. -/
theorem shapes_program {u : List Lexeme} {program : Program} (h : Phrase.Program u program) :
    HasShape program.hasNestedShape program.names u := by
  cases h with
  | @intro functions h =>
    have hfunctions := shapes_functions h
    have hshapes := List.all_eq_true.1 hfunctions.shape
    have hnonempty : functions.isEmpty = false := by cases h <;> rfl
    refine ⟨?_, hfunctions.names⟩
    rw [Program.hasNestedShape, Program.hasShape, Program.isLeftNested, hnonempty]
    refine Bool.and_eq_true_iff.2 ⟨Bool.and_eq_true_iff.2 ⟨rfl, ?_⟩, ?_⟩
    · exact List.all_eq_true.2 fun function hmem =>
        (Bool.and_eq_true_iff.1 (hshapes function hmem)).1
    · exact List.all_eq_true.2 fun function hmem =>
        (Bool.and_eq_true_iff.1 (hshapes function hmem)).2

end WhileLang

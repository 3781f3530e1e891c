import WhileLang.Proofs.Syntax.Names

/-!
# Canonical trees

Trees that the grammar has phrases for: arithmetic where the grammar wants arithmetic and logic
where it wants logic, all names identifiers, and programs that are not empty.  How the chains of
statements are nested does not count for this; the grammar only nests them to the left.

Main definitions:

- Functions {lit}`Expr.isArithmetic` and {lit}`Expr.isLogical`: the two kinds of expressions.
- Predicates {lit}`Expr.IsCanonical`, {lit}`Stmt.IsCanonical` and {lit}`Program.IsCanonical`.
- Functions {lit}`Stmt.leftNested` and {lit}`Stmt.isLeftNested`: chains that are nested to the left.

Main results:

- Theorem {lit}`Stmt.leftNested_eq_self_iff`: what is nested to the left already stays as it is.
- Theorem {lit}`Stmt.flatten_leftNested`: the statements of a chain stay the same.
-/

namespace WhileLang

/-! ## Shapes of expressions -/

mutual

/-- Integers, variables, calls, and sums and differences of such. -/
def Expr.isArithmetic : Expr → Bool
  | .literal (.int _) => true
  | .literal (.bool _) => false
  | .var _ => true
  | .math _ left right => left.isArithmetic && right.isArithmetic
  | .compare .. => false
  | .logic .. => false
  | .not _ => false
  | .call _ args => haveShapes args

/-- Truth values, variables, calls, comparisons of arithmetic, and what is joined of such. -/
def Expr.isLogical : Expr → Bool
  | .literal (.int _) => false
  | .literal (.bool _) => true
  | .var _ => true
  | .math .. => false
  | .compare _ left right => left.isArithmetic && right.isArithmetic
  | .logic _ left right => left.isLogical && right.isLogical
  | .not operand => operand.isLogical
  | .call _ args => haveShapes args

/-- Every argument is arithmetic or logical. -/
def haveShapes : List Expr → Bool
  | [] => true
  | arg :: args => (arg.isArithmetic || arg.isLogical) && haveShapes args

end

theorem haveShapes_iff {args : List Expr} :
    haveShapes args = true ↔ ∀ arg ∈ args, (arg.isArithmetic || arg.isLogical) = true := by
  induction args with
  | nil => simp [haveShapes]
  | cons arg args ih => rw [haveShapes, Bool.and_eq_true, ih, List.forall_mem_cons]

/-- An expression that stands by itself is arithmetic or logical. -/
def Expr.hasShape (tree : Expr) : Bool :=
  tree.isArithmetic || tree.isLogical

/-! ## Shapes of statements and programs -/

/-- Conditions are logical, and the values that are assigned arithmetic or logical. -/
def Stmt.hasShape : Stmt → Bool
  | .assign _ value => value.hasShape
  | .seq first second => first.hasShape && second.hasShape
  | .ifThen condition body => condition.isLogical && body.hasShape
  | .ifElse condition body alternative =>
    condition.isLogical && (body.hasShape && alternative.hasShape)
  | .loop condition body => condition.isLogical && body.hasShape

def FunctionDef.hasShape (function : FunctionDef) : Bool :=
  function.body.elim true Stmt.hasShape && function.result.hasShape

/-- There is a function, and all functions have their shape. -/
def Program.hasShape (program : Program) : Bool :=
  !program.functions.isEmpty && program.functions.all FunctionDef.hasShape

/-- An expression that can be written down. -/
def Expr.IsCanonical (tree : Expr) : Prop :=
  tree.hasShape = true ∧ IsNamed tree.names

/-- A block that can be written down, with its chains nested in any way. -/
def Stmt.IsCanonical (stmt : Stmt) : Prop :=
  stmt.hasShape = true ∧ IsNamed stmt.names

/-- A program that can be written down. -/
def Program.IsCanonical (program : Program) : Prop :=
  program.hasShape = true ∧ IsNamed program.names

instance (tree : Expr) : Decidable tree.IsCanonical :=
  inferInstanceAs (Decidable (_ ∧ _))

instance (stmt : Stmt) : Decidable stmt.IsCanonical :=
  inferInstanceAs (Decidable (_ ∧ _))

instance (program : Program) : Decidable program.IsCanonical :=
  inferInstanceAs (Decidable (_ ∧ _))

/-! ## Chains nested to the left -/

namespace Stmt

def isSeq : Stmt → Bool
  | .seq .. => true
  | _ => false

/-- A statement before a chain that is nested to the left. -/
def before (first : Stmt) : Stmt → Stmt
  | .seq second third => .seq (first.before second) third
  | other => .seq first other

/-- All chains of a tree nested to the left. -/
def leftNested : Stmt → Stmt
  | .assign name value => .assign name value
  | .seq first second => first.leftNested.before second.leftNested
  | .ifThen condition body => .ifThen condition body.leftNested
  | .ifElse condition body alternative =>
    .ifElse condition body.leftNested alternative.leftNested
  | .loop condition body => .loop condition body.leftNested

/-- Whether no chain is the second part of a chain. -/
def isLeftNested : Stmt → Bool
  | .assign .. => true
  | .seq first second => first.isLeftNested && (second.isLeftNested && !second.isSeq)
  | .ifThen _ body => body.isLeftNested
  | .ifElse _ body alternative => body.isLeftNested && alternative.isLeftNested
  | .loop _ body => body.isLeftNested

theorem before_eq_seq {first second : Stmt} (h : second.isSeq = false) :
    first.before second = .seq first second := by
  cases second <;> first | rfl | cases h

theorem isLeftNested_before {first second : Stmt} (hfirst : first.isLeftNested = true)
    (hsecond : second.isLeftNested = true) : (first.before second).isLeftNested = true := by
  induction second with
  | seq second third ih _ =>
    rw [isLeftNested, Bool.and_eq_true] at hsecond
    rw [before, isLeftNested, Bool.and_eq_true]
    exact ⟨ih hsecond.1, hsecond.2⟩
  | assign | ifThen | ifElse | loop =>
    rw [before_eq_seq rfl, isLeftNested, hfirst, hsecond]
    rfl

theorem isLeftNested_leftNested (stmt : Stmt) : stmt.leftNested.isLeftNested = true := by
  induction stmt with
  | assign => rfl
  | seq first second ihf ihs => exact isLeftNested_before ihf ihs
  | ifThen condition body ih | loop condition body ih => exact ih
  | ifElse condition body alternative ihb iha => exact Bool.and_eq_true_iff.2 ⟨ihb, iha⟩

theorem leftNested_eq_self {stmt : Stmt} (h : stmt.isLeftNested = true) :
    stmt.leftNested = stmt := by
  induction stmt with
  | assign => rfl
  | seq first second ihf ihs =>
    rw [isLeftNested, Bool.and_eq_true, Bool.and_eq_true, Bool.not_eq_true'] at h
    rw [leftNested, ihf h.1, ihs h.2.1, before_eq_seq h.2.2]
  | ifThen condition body ih | loop condition body ih => rw [leftNested, ih h]
  | ifElse condition body alternative ihb iha =>
    rw [isLeftNested, Bool.and_eq_true] at h
    rw [leftNested, ihb h.1, iha h.2]

/-- A tree is left as it is exactly if its chains are nested to the left already. -/
theorem leftNested_eq_self_iff {stmt : Stmt} :
    stmt.leftNested = stmt ↔ stmt.isLeftNested = true := by
  constructor
  · intro h
    rw [← h]
    exact isLeftNested_leftNested stmt
  · exact leftNested_eq_self

theorem flatten_before (first second : Stmt) :
    (first.before second).flatten = first.flatten ++ second.flatten := by
  induction second with
  | seq second third ih _ => simp only [before, flatten, ih, List.append_assoc]
  | assign | ifThen | ifElse | loop => rfl

/-- Nesting to the left keeps the statements of a chain and their order. -/
theorem flatten_leftNested (stmt : Stmt) :
    stmt.leftNested.flatten = stmt.flatten.map leftNested := by
  induction stmt with
  | seq first second ihf ihs =>
    rw [leftNested, flatten_before, ihf, ihs, flatten, List.map_append]
  | assign | ifThen | ifElse | loop => rfl

example (first second third : Expr) :
    (seq (.assign "a" first) (.seq (.assign "b" second) (.assign "c" third))).leftNested
      = seq (.seq (.assign "a" first) (.assign "b" second)) (.assign "c" third) := by
  rfl

end Stmt

/-- A function with the chains of its body nested to the left. -/
def FunctionDef.leftNested (function : FunctionDef) : FunctionDef :=
  { function with body := function.body.map Stmt.leftNested }

def FunctionDef.isLeftNested (function : FunctionDef) : Bool :=
  function.body.elim true Stmt.isLeftNested

/-- A program with all chains nested to the left. -/
def Program.leftNested (program : Program) : Program :=
  { functions := program.functions.map FunctionDef.leftNested }

def Program.isLeftNested (program : Program) : Bool :=
  program.functions.all FunctionDef.isLeftNested

theorem FunctionDef.leftNested_eq_self {function : FunctionDef} (h : function.isLeftNested = true) :
    function.leftNested = function := by
  obtain ⟨name, params, body, result⟩ := function
  cases body with
  | none => rfl
  | some body =>
    have hbody : body.leftNested = body := Stmt.leftNested_eq_self h
    rw [leftNested, Option.map_some, hbody]

theorem Program.leftNested_eq_self {program : Program} (h : program.isLeftNested = true) :
    program.leftNested = program := by
  have hfunctions : program.functions.map FunctionDef.leftNested = program.functions := by
    rw [List.map_congr_left, List.map_id]
    exact fun function hmem => FunctionDef.leftNested_eq_self (List.all_eq_true.1 h function hmem)
  rw [leftNested, hfunctions]

end WhileLang

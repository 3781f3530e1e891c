import WhileLang.Proofs.Syntax.Canonical

/-!
# Nested chains

Trees that differ in the nesting of their chains only are those that are the same once all chains
are nested to the left.  For blocks this says that they are chains of the same statements, up to the
nesting of the blocks within these.

Main results:

- Theorem {lit}`Stmt.leftNested_eq_iff`: blocks that differ in the nesting of chains.
- Theorem {lit}`FunctionDef.leftNested_eq_iff`: functions that differ in the nesting of chains.
- Theorem {lit}`Program.function?_leftNested`: the effective definitions stay the same.
-/

namespace WhileLang

namespace Stmt

/-! ## Blocks with the same statements -/

theorem flatten_eq_singleton {stmt : Stmt} (h : stmt.isSeq = false) : stmt.flatten = [stmt] := by
  cases stmt <;> first | rfl | cases h

theorem flatten_ne_nil (stmt : Stmt) : stmt.flatten ≠ [] := by
  induction stmt with
  | seq first second ih _ => exact fun h => ih (List.append_eq_nil_iff.1 h).1
  | assign | ifThen | ifElse | loop => exact List.cons_ne_nil _ _

/-- The statements of a chain that is nested to the left, the last one apart. -/
theorem flatten_seq_of_isLeftNested {first second : Stmt}
    (h : (seq first second).isLeftNested = true) :
    (seq first second).flatten = first.flatten ++ [second] := by
  rw [isLeftNested, Bool.and_eq_true, Bool.and_eq_true, Bool.not_eq_true'] at h
  rw [flatten, flatten_eq_singleton h.2.2]

/-- A chain of two statements or more is no single statement. -/
theorem flatten_append_ne_singleton (first last single : Stmt) :
    first.flatten ++ [last] ≠ [single] := by
  intro h
  cases hfirst : first.flatten with
  | nil => exact first.flatten_ne_nil hfirst
  | cons head rest =>
    rw [hfirst, List.cons_append, List.cons.injEq] at h
    exact List.append_ne_nil_of_right_ne_nil rest (List.cons_ne_nil last []) h.2

/-- A chain that is nested to the left is told by its statements. -/
theorem eq_of_flatten_eq {stmt other : Stmt} (hstmt : stmt.isLeftNested = true)
    (hother : other.isLeftNested = true) (h : stmt.flatten = other.flatten) : stmt = other := by
  induction stmt generalizing other with
  | seq first second ih _ =>
    rw [flatten_seq_of_isLeftNested hstmt] at h
    cases other with
    | seq first' second' =>
      rw [flatten_seq_of_isLeftNested hother] at h
      obtain ⟨hfirst, hsecond⟩ := List.append_inj' h rfl
      rw [isLeftNested, Bool.and_eq_true] at hstmt hother
      rw [ih hstmt.1 hother.1 hfirst, List.cons.inj hsecond |>.1]
    | assign | ifThen | ifElse | loop => exact (flatten_append_ne_singleton _ _ _ h).elim
  | assign | ifThen | ifElse | loop =>
    cases other with
    | seq first second =>
      rw [flatten_seq_of_isLeftNested hother] at h
      exact (flatten_append_ne_singleton _ _ _ h.symm).elim
    | assign | ifThen | ifElse | loop => exact (List.cons.inj h).1

/-- Blocks differ in the nesting of chains if their statements do so one by one. -/
theorem leftNested_eq_iff {stmt other : Stmt} : stmt.leftNested = other.leftNested ↔
    stmt.flatten.map leftNested = other.flatten.map leftNested := by
  rw [← flatten_leftNested, ← flatten_leftNested]
  exact ⟨congrArg flatten,
    eq_of_flatten_eq (isLeftNested_leftNested stmt) (isLeftNested_leftNested other)⟩

/-! ## Shapes of single statements -/

theorem isSeq_before (first second : Stmt) : (first.before second).isSeq = true := by
  cases second <;> rfl

/-- What is no chain does not become one. -/
theorem isSeq_leftNested (stmt : Stmt) : stmt.leftNested.isSeq = stmt.isSeq := by
  cases stmt with
  | seq first second => exact isSeq_before _ _
  | assign | ifThen | ifElse | loop => rfl

theorem leftNested_eq_assign {stmt : Stmt} {name : String} {value : Expr}
    (h : stmt.leftNested = .assign name value) : stmt = .assign name value := by
  cases stmt with
  | seq => cases (isSeq_leftNested _).symm.trans (congrArg isSeq h)
  | assign => exact h
  | ifThen | ifElse | loop => cases h

theorem leftNested_eq_ifThen {stmt body : Stmt} {condition : Expr}
    (h : stmt.leftNested = .ifThen condition body) :
    ∃ inner, stmt = .ifThen condition inner ∧ inner.leftNested = body := by
  cases stmt with
  | seq => cases (isSeq_leftNested _).symm.trans (congrArg isSeq h)
  | ifThen condition inner =>
    cases h
    exact ⟨inner, rfl, rfl⟩
  | assign | ifElse | loop => cases h

theorem leftNested_eq_ifElse {stmt body alternative : Stmt} {condition : Expr}
    (h : stmt.leftNested = .ifElse condition body alternative) :
    ∃ inner inner', stmt = .ifElse condition inner inner' ∧ inner.leftNested = body
      ∧ inner'.leftNested = alternative := by
  cases stmt with
  | seq => cases (isSeq_leftNested _).symm.trans (congrArg isSeq h)
  | ifElse condition inner inner' =>
    cases h
    exact ⟨inner, inner', rfl, rfl, rfl⟩
  | assign | ifThen | loop => cases h

theorem leftNested_eq_loop {stmt body : Stmt} {condition : Expr}
    (h : stmt.leftNested = .loop condition body) :
    ∃ inner, stmt = .loop condition inner ∧ inner.leftNested = body := by
  cases stmt with
  | seq => cases (isSeq_leftNested _).symm.trans (congrArg isSeq h)
  | loop condition inner =>
    cases h
    exact ⟨inner, rfl, rfl⟩
  | assign | ifThen | ifElse => cases h

/-! ## Calls -/

theorem callees_before (first second : Stmt) :
    (first.before second).callees = first.callees ++ second.callees := by
  induction second with
  | seq second third ih _ => simp only [before, callees, ih, List.append_assoc]
  | assign | ifThen | ifElse | loop => rfl

theorem callees_leftNested (stmt : Stmt) : stmt.leftNested.callees = stmt.callees := by
  induction stmt with
  | assign => rfl
  | seq first second ihf ihs => rw [leftNested, callees_before, ihf, ihs, callees]
  | ifThen condition body ih | loop condition body ih => rw [leftNested, callees, callees, ih]
  | ifElse condition body alternative ihb iha =>
    rw [leftNested, callees, callees, ihb, iha]

end Stmt

/-! ## Functions and programs -/

namespace FunctionDef

/-- Functions differ in the nesting of chains if their bodies do. -/
theorem leftNested_eq_iff {function other : FunctionDef} :
    function.leftNested = other.leftNested ↔
      function.name = other.name ∧ function.params = other.params
        ∧ function.body.map Stmt.leftNested = other.body.map Stmt.leftNested
        ∧ function.result = other.result := by
  simp only [leftNested, mk.injEq]

theorem callees_leftNested (function : FunctionDef) :
    function.leftNested.callees = function.callees := by
  unfold leftNested callees
  cases function.body with
  | none => rfl
  | some body => simp only [Option.map_some, Option.elim_some, body.callees_leftNested]

end FunctionDef

namespace Program

/-- The effective definition of a name is still that, with its chains nested to the left. -/
theorem function?_leftNested (program : Program) (name : String) :
    program.leftNested.function? name = (program.function? name).map FunctionDef.leftNested := by
  unfold function? leftNested
  rw [List.findRev?_eq_find?_reverse, List.findRev?_eq_find?_reverse, ← List.map_reverse,
    List.find?_map]
  rfl

/-- Effective definitions of programs that differ in the nesting of chains. -/
theorem effective_of_leftNested_eq {program other : Program}
    (h : program.leftNested = other.leftNested) (name : String) :
    (∃ function function', program.effective name = .ok function
        ∧ other.effective name = .ok function' ∧ function.leftNested = function'.leftNested)
      ∨ ∃ error, program.effective name = .error error ∧ other.effective name = .error error := by
  have hmap : (program.function? name).map FunctionDef.leftNested
      = (other.function? name).map FunctionDef.leftNested := by
    rw [← function?_leftNested, ← function?_leftNested, h]
  unfold effective
  cases hfirst : program.function? name with
  | none =>
    rw [hfirst, Option.map_none] at hmap
    rw [Option.map_eq_none_iff.1 hmap.symm]
    exact .inr ⟨_, rfl, rfl⟩
  | some function =>
    rw [hfirst, Option.map_some] at hmap
    obtain ⟨function', hsecond, hsame⟩ := Option.map_eq_some_iff.1 hmap.symm
    rw [hsecond]
    exact .inl ⟨function, function', rfl, rfl, hsame.symm⟩

theorem defines_leftNested (program : Program) (name : String) :
    program.leftNested.defines name = program.defines name := by
  rw [defines, function?_leftNested, Option.isSome_map, defines]

end Program

end WhileLang

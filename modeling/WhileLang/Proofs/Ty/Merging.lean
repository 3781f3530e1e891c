import Mathlib.Logic.Function.Iterate
import WhileLang.Proofs.Ty.Replacement

/-!
# Merging bindings

Each round of {lit}`Subst.settle` substitutes all bindings into each other at once, until a round
finds them idempotent.  So each round but the last at least doubles the number of times that the
given bindings are applied.

Main results:

- Theorem {lit}`Subst.settle_eq`: what is bound after some rounds, and what applying it does.
- Theorem {lit}`Subst.apply_settle_apply`: settled bindings satisfy the given ones.
-/

namespace WhileLang
namespace Subst

/-! ## Entries -/

/-- What is bound to a variable is one of the entries. -/
theorem mem_entries_of_get? {subst : Subst} {x : String} {type : Ty}
    (h : subst.get? x = some type) : (x, type) ∈ subst.entries := by
  obtain ⟨before, after, heq, -⟩ := List.lookup_eq_some_iff.1 h
  simp [heq]

/-- A variable is bound if it has an entry. -/
theorem binds_iff {subst : Subst} {x : String} :
    subst.binds x = true ↔ ∃ type, (x, type) ∈ subst.entries := by
  simp only [binds, get?, List.lookup_isSome_iff, beq_iff_eq]
  constructor
  · rintro ⟨⟨_, type⟩, hmem, rfl⟩
    exact ⟨type, hmem⟩
  · rintro ⟨type, hmem⟩
    exact ⟨(x, type), hmem, rfl⟩

/-- Bindings are idempotent if no bound type mentions a bound variable. -/
theorem isIdempotent_iff {subst : Subst} :
    subst.isIdempotent = true
      ↔ ∀ entry ∈ subst.entries, ∀ y ∈ entry.2.occurrences, subst.binds y = false := by
  simp [isIdempotent]

/-- Idempotent bindings leave no bound variable in a type. -/
theorem not_binds_of_mem_apply {subst : Subst} (h : subst.isIdempotent = true) {type : Ty}
    {y : String} (hy : y ∈ (subst.apply type).occurrences) : subst.binds y = false := by
  obtain ⟨x, -, ⟨hfree, rfl⟩ | ⟨bound, hx, hy⟩⟩ := mem_occurrences_apply.1 hy
  · exact hfree
  · exact isIdempotent_iff.1 h _ (mem_entries_of_get? hx) y hy

/-- Applying idempotent bindings a second time changes nothing. -/
theorem apply_apply_of_isIdempotent {subst : Subst} (h : subst.isIdempotent = true) (type : Ty) :
    subst.apply (subst.apply type) = subst.apply type :=
  apply_eq_self fun _ hy => not_binds_of_mem_apply h hy

/-! ## One round -/

/-- Looking up after all types in a table were changed. -/
theorem lookup_map_types {α : Type} [BEq α] [LawfulBEq α] (f : Ty → Ty) (table : List (α × Ty))
    (key : α) :
    (table.map fun entry => (entry.1, f entry.2)).lookup key = (table.lookup key).map f := by
  induction table with
  | nil => rfl
  | cons entry rest ih =>
    rw [List.map_cons, List.lookup_cons, List.lookup_cons, ih]
    cases key == entry.1
    · rfl
    · rfl

/-- Looking up after the types of all bindings were changed. -/
theorem get?_mapTypes (subst : Subst) (f : Ty → Ty) (x : String) :
    (subst.mapTypes f).get? x = (subst.get? x).map f :=
  lookup_map_types f subst.entries x

/-- Changing the types of bindings binds the same variables. -/
@[simp]
theorem binds_mapTypes (subst : Subst) (f : Ty → Ty) (x : String) :
    (subst.mapTypes f).binds x = subst.binds x := by
  simp [binds, get?_mapTypes]

@[simp]
theorem mapTypes_id (subst : Subst) : subst.mapTypes id = subst := by
  simp [mapTypes]

@[simp]
theorem mapTypes_mapTypes (subst : Subst) (f g : Ty → Ty) :
    (subst.mapTypes f).mapTypes g = subst.mapTypes (g ∘ f) := by
  simp [mapTypes, Function.comp_def]

/-- After a round, applying the bindings is applying the old ones twice. -/
theorem apply_mapTypes_apply (subst : Subst) (type : Ty) :
    (subst.mapTypes subst.apply).apply type = subst.apply (subst.apply type) := by
  induction type with
  | var x => cases hx : subst.get? x <;> simp [apply, get?_mapTypes, hx]
  | con _ => rfl
  | arrow domain codomain ihd ihc => simp only [apply, ihd, ihc]

/-! ## All rounds -/

/-- Bindings that are idempotent do not change any more. -/
theorem settle_eq_self {subst : Subst} (h : subst.isIdempotent = true) (rounds : Nat) :
    settle rounds subst = subst := by
  cases rounds with
  | zero => rfl
  | succ rounds => rw [settle, if_pos h]

/-- Bindings that are not idempotent are substituted into each other in the first round. -/
theorem settle_succ_of_not {subst : Subst} (h : ¬ subst.isIdempotent = true) (rounds : Nat) :
    settle (rounds + 1) subst = settle rounds (subst.mapTypes subst.apply) := by
  rw [settle, if_neg h]

/-- A round that finds the bindings idempotent changes nothing. -/
theorem settle_succ {rounds : Nat} {subst : Subst}
    (h : (settle rounds subst).isIdempotent = true) :
    settle (rounds + 1) subst = settle rounds subst := by
  induction rounds generalizing subst with
  | zero => exact settle_eq_self h 1
  | succ rounds ih =>
    by_cases hidempotent : subst.isIdempotent = true
    · rw [settle_eq_self hidempotent, settle_eq_self hidempotent]
    · rw [settle_succ_of_not hidempotent] at h
      rw [settle_succ_of_not hidempotent, settle_succ_of_not hidempotent]
      exact ih h

/--
After some rounds, the given bindings have been applied to each bound type a number of times: at
least once a round, unless the bindings are idempotent by then.  Applying what is bound now to a
type is applying the given bindings once more than that.
-/
theorem settle_eq (rounds : Nat) (subst : Subst) :
    ∃ times, settle rounds subst = subst.mapTypes subst.apply^[times]
      ∧ (∀ type, (settle rounds subst).apply type = subst.apply^[times + 1] type)
      ∧ ((settle rounds subst).isIdempotent = true ∨ rounds ≤ times) := by
  induction rounds generalizing subst with
  | zero => exact ⟨0, by simp [settle], fun _ => rfl, Or.inr (Nat.le_refl 0)⟩
  | succ rounds ih =>
    by_cases hidempotent : subst.isIdempotent = true
    · rw [settle_eq_self hidempotent]
      exact ⟨0, by simp, fun _ => rfl, Or.inl hidempotent⟩
    · obtain ⟨times, heq, happly, hend⟩ := ih (subst.mapTypes subst.apply)
      have htwice : (subst.mapTypes subst.apply).apply = subst.apply^[2] :=
        funext (apply_mapTypes_apply subst)
      rw [settle_succ_of_not hidempotent]
      refine ⟨2 * times + 1, ?_, fun type => ?_, hend.imp_right fun hle => by omega⟩
      · rw [heq, htwice, ← Function.iterate_mul, mapTypes_mapTypes, Function.iterate_succ]
      · rw [happly, htwice, ← Function.iterate_mul]
        rfl

/-- Settling binds the same variables. -/
@[simp]
theorem binds_settle (rounds : Nat) (subst : Subst) (x : String) :
    (settle rounds subst).binds x = subst.binds x := by
  obtain ⟨times, heq, -⟩ := settle_eq rounds subst
  rw [heq, binds_mapTypes]

/-- Applying settled bindings is applying the given ones a number of times. -/
theorem apply_settle (rounds : Nat) (subst : Subst) :
    ∃ times, ∀ type, (settle rounds subst).apply type = subst.apply^[times] type := by
  obtain ⟨times, -, happly, -⟩ := settle_eq rounds subst
  exact ⟨times + 1, happly⟩

/-- Settled bindings satisfy the given ones: substituting those first makes no difference. -/
theorem apply_settle_apply {rounds : Nat} {subst : Subst}
    (h : (settle rounds subst).isIdempotent = true) (type : Ty) :
    (settle rounds subst).apply (subst.apply type) = (settle rounds subst).apply type := by
  obtain ⟨times, htimes⟩ := apply_settle rounds subst
  calc
    (settle rounds subst).apply (subst.apply type) = subst.apply^[times] (subst.apply type) :=
      htimes _
    _ = subst.apply (subst.apply^[times] type) :=
      (Function.Commute.refl subst.apply).iterate_left times type
    _ = subst.apply ((settle rounds subst).apply type) := by rw [htimes]
    _ = (settle rounds subst).apply type :=
      apply_eq_self fun y hy => by
        have := not_binds_of_mem_apply h hy
        rwa [binds_settle] at this

/-- An assignment that agrees with the given bindings agrees with the settled ones. -/
theorem replace_apply_settle {f : String → Ty} {subst : Subst}
    (h : ∀ type : Ty, (subst.apply type).replace f = type.replace f) (rounds : Nat) (type : Ty) :
    ((settle rounds subst).apply type).replace f = type.replace f := by
  obtain ⟨times, htimes⟩ := apply_settle rounds subst
  rw [htimes]
  clear htimes
  induction times generalizing type with
  | zero => rfl
  | succ times ih => rw [Function.iterate_succ_apply, ih, h]

/-- Settling brings no new variables into the bound types. -/
theorem forall_mem_occurrences_settle {p : String → Prop} {subst : Subst}
    (h : ∀ entry ∈ subst.entries, ∀ y ∈ entry.2.occurrences, p y) (rounds : Nat) :
    ∀ entry ∈ (settle rounds subst).entries, ∀ y ∈ entry.2.occurrences, p y := by
  induction rounds generalizing subst with
  | zero => exact h
  | succ rounds ih =>
    unfold settle
    split
    · exact h
    · refine ih ?_
      simp only [mapTypes, List.mem_map, forall_exists_index, and_imp]
      rintro _ entry hentry rfl y hy
      obtain ⟨x, hx, ⟨-, rfl⟩ | ⟨bound, hget, hy⟩⟩ := mem_occurrences_apply.1 hy
      · exact h entry hentry y hx
      · exact h _ (mem_entries_of_get? hget) y hy

end Subst
end WhileLang

import Mathlib.Data.Finset.Card
import Mathlib.Logic.Relation
import WhileLang.Proofs.Ty.Merging

/-!
# Cycles of bindings

A bound variable leads to the bound variables that its type mentions.  Merging closes the bindings
just if no variable leads back to itself.

Without a cycle, each application of the bindings to a type moves the bound variables that are left
in it one step further, and a variable has no more steps ahead than there are other bound variables.
With a cycle, a variable on it is replaced by a type with another variable on it, so that no number
of applications removes them all.

Main definitions:

- Relation {lit}`Subst.LeadsTo` and predicate {lit}`Subst.IsAcyclic`.
- Relation {lit}`Subst.ClosesTo`: a type after the bindings are applied until none of their
  variables is left.
- Function {lit}`Subst.stepsAhead`: how many bound variables a variable leads to.

Main results:

- Theorem {lit}`Subst.IsAcyclic.settle_isIdempotent`: one round for each binding is enough.
- Theorem {lit}`Subst.merge_closesAcyclic`: merging closes the acyclic bindings, and no others.
-/

namespace WhileLang

open Relation (TransGen)

namespace Subst

/-- A bound variable leads to the bound variables that its type mentions. -/
def LeadsTo (subst : Subst) (x y : String) : Prop :=
  ∃ type, subst.get? x = some type ∧ y ∈ type.occurrences ∧ subst.binds y = true

/-- No variable leads back to itself. -/
def IsAcyclic (subst : Subst) : Prop :=
  ∀ x, ¬ TransGen subst.LeadsTo x x

/-- No bound variable occurs in a type. -/
def IsClosed (subst : Subst) (type : Ty) : Prop :=
  ∀ y ∈ type.occurrences, subst.binds y = false

/-- The bindings are applied to a type over and over, until no bound variable is left. -/
inductive ClosesTo (subst : Subst) : Ty → Ty → Prop where
  | done {type : Ty} (h : subst.IsClosed type) : ClosesTo subst type type
  | again {type closed : Ty} (hopen : ¬ subst.IsClosed type)
      (h : ClosesTo subst (subst.apply type) closed) : ClosesTo subst type closed

variable {subst : Subst} {type : Ty} {x y : String}

/-- A type that is closed after some number of applications is what the first ones close it to. -/
theorem closesTo_iterate {times : Nat} (h : subst.IsClosed (subst.apply^[times] type)) :
    subst.ClosesTo type (subst.apply^[times] type) := by
  induction times generalizing type with
  | zero => exact .done h
  | succ times ih =>
    rw [Function.iterate_succ_apply] at h ⊢
    by_cases hclosed : subst.IsClosed type
    · have hsame : subst.apply type = type := apply_eq_self hclosed
      rw [hsame] at h ⊢
      exact ih h
    · exact .again hclosed (ih h)

/-! ## Bindings without a cycle -/

/-- Variables that only lead to variables of smaller rank never come back. -/
theorem isAcyclic_of_rank (rank : String → Nat)
    (h : ∀ x y, subst.LeadsTo x y → rank y < rank x) : subst.IsAcyclic := by
  intro x hcycle
  have hless (y : String) (hxy : TransGen subst.LeadsTo x y) : rank y < rank x := by
    induction hxy with
    | single hxy => exact h _ _ hxy
    | tail _ hyz ih => exact (h _ _ hyz).trans ih
  exact Nat.lt_irrefl _ (hless x hcycle)

/-- The variables that have a binding. -/
def boundVars (subst : Subst) : Finset String :=
  (subst.entries.map (·.1)).toFinset

theorem mem_boundVars : x ∈ subst.boundVars ↔ subst.binds x = true := by
  simp [boundVars, binds_iff]

theorem card_boundVars_le (subst : Subst) : subst.boundVars.card ≤ subst.size := by
  have := List.toFinset_card_le (subst.entries.map (·.1))
  simpa [boundVars, size] using this

open Classical in
/-- How many bound variables a variable leads to, in one step or more. -/
noncomputable def stepsAhead (subst : Subst) (x : String) : Nat :=
  {y ∈ subst.boundVars | TransGen subst.LeadsTo x y}.card

/-- A variable has more steps ahead than those it leads to. -/
theorem IsAcyclic.stepsAhead_lt (h : subst.IsAcyclic) (hxy : subst.LeadsTo x y) :
    subst.stepsAhead y < subst.stepsAhead x := by
  have hy : y ∈ subst.boundVars := by
    obtain ⟨_, -, -, hbinds⟩ := hxy
    exact mem_boundVars.2 hbinds
  refine Finset.card_lt_card (Finset.ssubset_iff_of_subset ?_ |>.2 ⟨y, ?_, ?_⟩)
  · intro z hz
    simp only [Finset.mem_filter] at hz ⊢
    exact ⟨hz.1, .head hxy hz.2⟩
  · simp only [Finset.mem_filter]
    exact ⟨hy, .single hxy⟩
  · simp only [Finset.mem_filter, not_and]
    exact fun _ => h y

/-- A bound variable has fewer steps ahead than there are bindings, as it does not come back. -/
theorem IsAcyclic.stepsAhead_lt_size (h : subst.IsAcyclic) (hx : subst.binds x = true) :
    subst.stepsAhead x < subst.size := by
  have hlt : subst.stepsAhead x < subst.boundVars.card := by
    classical
    refine Finset.card_lt_card (Finset.ssubset_iff_of_subset (Finset.filter_subset _ _) |>.2 ?_)
    refine ⟨x, mem_boundVars.2 hx, ?_⟩
    simp only [Finset.mem_filter, not_and]
    exact fun _ => h x
  exact hlt.trans_le subst.card_boundVars_le

/-- Every application uses up one of the steps ahead of a bound variable in a type. -/
theorem IsAcyclic.stepsAhead_iterate (h : subst.IsAcyclic) {times : Nat}
    (hy : y ∈ (subst.apply^[times] type).occurrences) (hbinds : subst.binds y = true) :
    ∃ x, subst.binds x = true ∧ subst.stepsAhead y + times ≤ subst.stepsAhead x := by
  induction times generalizing y with
  | zero => exact ⟨y, hbinds, Nat.le_refl _⟩
  | succ times ih =>
    rw [Function.iterate_succ_apply', mem_occurrences_apply] at hy
    obtain ⟨z, hz, ⟨hfree, rfl⟩ | ⟨bound, hbound, hy⟩⟩ := hy
    · simp [hbinds] at hfree
    · have hless := h.stepsAhead_lt ⟨bound, hbound, hy, hbinds⟩
      obtain ⟨x, hx, hle⟩ := ih hz (by simp [binds, hbound])
      exact ⟨x, hx, by omega⟩

/-- As many applications as there are bindings close every type. -/
theorem IsAcyclic.isClosed_iterate (h : subst.IsAcyclic) {times : Nat}
    (hle : subst.size ≤ times) (type : Ty) : subst.IsClosed (subst.apply^[times] type) := by
  intro y hy
  by_contra hbinds
  obtain ⟨x, hx, hsteps⟩ := h.stepsAhead_iterate hy (by simpa using hbinds)
  have := h.stepsAhead_lt_size hx
  omega

/-- As many rounds as there are bindings make them idempotent. -/
theorem IsAcyclic.settle_isIdempotent (h : subst.IsAcyclic) :
    (settle subst.size subst).isIdempotent = true := by
  obtain ⟨times, heq, -, hidempotent | hle⟩ := settle_eq subst.size subst
  · exact hidempotent
  · rw [heq, isIdempotent_iff]
    simp only [mapTypes, List.mem_map, forall_exists_index, and_imp]
    rintro _ entry - rfl y hy
    exact (binds_mapTypes _ _ _).trans (h.isClosed_iterate hle entry.2 y hy)

theorem IsAcyclic.merge_eq (h : subst.IsAcyclic) : subst.merge = settle subst.size subst :=
  settle_succ h.settle_isIdempotent

theorem IsAcyclic.merge_isIdempotent (h : subst.IsAcyclic) : subst.merge.isIdempotent = true := by
  rw [h.merge_eq]
  exact h.settle_isIdempotent

/-! ## Bindings with a cycle -/

/-- A variable on a cycle leads to another one on a cycle. -/
theorem exists_leadsTo_of_cycle (h : TransGen subst.LeadsTo x x) :
    ∃ y, subst.LeadsTo x y ∧ TransGen subst.LeadsTo y y := by
  obtain ⟨y, hxy, hyx⟩ := TransGen.head'_iff.1 h
  exact ⟨y, hxy, .tail' hyx hxy⟩

/-- No number of applications removes all variables on cycles from a type. -/
theorem exists_cycle_iterate (hx : x ∈ type.occurrences) (hcycle : TransGen subst.LeadsTo x x)
    (times : Nat) :
    ∃ y ∈ (subst.apply^[times] type).occurrences, TransGen subst.LeadsTo y y := by
  induction times with
  | zero => exact ⟨x, hx, hcycle⟩
  | succ times ih =>
    obtain ⟨y, hy, hcycle⟩ := ih
    obtain ⟨z, ⟨bound, hbound, hz, -⟩, hcycle⟩ := exists_leadsTo_of_cycle hcycle
    rw [Function.iterate_succ_apply']
    exact ⟨z, mem_occurrences_apply.2 ⟨y, hy, Or.inr ⟨bound, hbound, hz⟩⟩, hcycle⟩

/-- No number of rounds makes bindings with a cycle idempotent. -/
theorem settle_not_isIdempotent (h : TransGen subst.LeadsTo x x) (rounds : Nat) :
    (settle rounds subst).isIdempotent = false := by
  obtain ⟨times, heq, -⟩ := settle_eq rounds subst
  obtain ⟨y, ⟨bound, hbound, hy, -⟩, hcycle⟩ := exists_leadsTo_of_cycle h
  obtain ⟨z, hz, hcycle⟩ := exists_cycle_iterate hy hcycle times
  obtain ⟨_, ⟨_, hboundz, -, -⟩, -⟩ := exists_leadsTo_of_cycle hcycle
  rw [Bool.eq_false_iff, heq, Ne, isIdempotent_iff]
  intro hclosed
  have hmem : (x, subst.apply^[times] bound) ∈ (subst.mapTypes subst.apply^[times]).entries :=
    mem_entries_of_get? (by rw [get?_mapTypes, hbound, Option.map_some])
  have hfree := hclosed _ hmem z hz
  rw [binds_mapTypes] at hfree
  simp [binds, hboundz] at hfree

/-! ## Merging -/

/--
Merging closes the acyclic bindings, and no others.  It binds the same variables.  If no variable
leads back to itself, then one round for each binding is enough, and each bound type is closed by
applying the bindings over and over; otherwise the merged bindings are not idempotent.
-/
theorem merge_closesAcyclic (subst : Subst) :
    (∀ x, subst.merge.binds x = subst.binds x)
      ∧ (subst.merge.isIdempotent = true ↔ subst.IsAcyclic)
      ∧ (subst.IsAcyclic → subst.merge = settle subst.size subst
          ∧ ∀ x type, subst.get? x = some type →
            ∃ closed, subst.merge.get? x = some closed ∧ subst.ClosesTo type closed) := by
  refine ⟨fun x => binds_settle _ subst x, ⟨fun hidempotent x hcycle => ?_, fun h => ?_⟩, ?_⟩
  · have := settle_not_isIdempotent hcycle (subst.size + 1)
    simp [merge, this] at hidempotent
  · exact h.merge_isIdempotent
  · intro h
    refine ⟨h.merge_eq, fun x type hx => ?_⟩
    obtain ⟨times, heq, -, -⟩ := settle_eq (subst.size + 1) subst
    have hget : subst.merge.get? x = some (subst.apply^[times] type) := by
      rw [merge, heq, get?_mapTypes, hx, Option.map_some]
    refine ⟨_, hget, closesTo_iterate fun y hy => ?_⟩
    have hclosed := isIdempotent_iff.1 h.merge_isIdempotent _ (mem_entries_of_get? hget) y hy
    rwa [merge, binds_settle] at hclosed

/-- A chain of bindings, each of which mentions the next one. -/
def chain : Subst where
  entries := [("a", .arrow (.var "b") (.var "c")), ("b", .var "c"), ("c", .int)]

theorem merge_closesAcyclic_chain :
    chain.IsAcyclic ∧ chain.merge = settle 3 chain
      ∧ ∃ closed, chain.merge.get? "a" = some closed
        ∧ chain.ClosesTo (.arrow (.var "b") (.var "c")) closed := by
  have hacyclic : chain.IsAcyclic := (merge_closesAcyclic chain).2.1.1 (by decide)
  obtain ⟨hrounds, hcloses⟩ := (merge_closesAcyclic chain).2.2 hacyclic
  exact ⟨hacyclic, hrounds, hcloses "a" _ rfl⟩

end Subst

end WhileLang

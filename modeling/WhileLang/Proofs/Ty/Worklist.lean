import Mathlib.Data.Prod.Lex
import Mathlib.Logic.Relation
import Mathlib.Order.WellFounded
import WhileLang.Proofs.Ty.MostGeneral

/-!
# The worklist of unification

Unification looks at the first equation of a list, and drops it, takes it apart, or binds a variable
and substitutes the binding in all other equations.  No single size of the list falls with every
look: taking an equation apart puts two in its place, and a substitution can make every equation
larger.  But a bound variable is gone from the list, since no type that contains it is put in its
place.  So either fewer different variables are left, or no more of them and smaller equations.

Main definitions:

- Structure {lit}`Unify.Worklist`, with relation {lit}`Unify.Worklist.LeadsTo` for one look and
  relation {lit}`Unify.Worklist.EndsWith` for its two ways to end.
- Function {lit}`Unify.Worklist.measure`: the variables that are left, and then the size.

Main results:

- Theorem {lit}`Unify.Worklist.LeadsTo.measure_lt`: every look lowers the measure.
- Theorem {lit}`Unify.typeSize_apply_single`: how much a substitution makes a type larger.
- Theorem {lit}`unify_terminates`: the worklist is emptied or fails after finitely many looks.
-/

namespace WhileLang

open Relation (ReflTransGen)

namespace Unify

/-! ## Looks -/

/-- The equations that are left, and the bindings found so far. -/
structure Worklist where
  pending : List Constraint
  solution : Subst := .empty

namespace Worklist

variable {worklist after : Worklist} {ending : Except SemanticError Subst}

/-- One look at the first equation. -/
inductive LeadsTo : Worklist → Worklist → Prop where
  | replace {left right : Ty} {rest parts : List Constraint} {solution : Subst}
      (h : step left right solution = .ok (.replace parts)) :
      LeadsTo ⟨(left, right) :: rest, solution⟩ ⟨parts ++ rest, solution⟩
  | bind {left right type : Ty} {rest : List Constraint} {solution : Subst} {name : String}
      (h : step left right solution = .ok (.bind name type)) :
      LeadsTo ⟨(left, right) :: rest, solution⟩
        ⟨rest.map (substitute name type), solution.insert name type⟩

/-- No equation is left, or the first one cannot be solved. -/
inductive EndsWith : Worklist → Except SemanticError Subst → Prop where
  | emptied (solution : Subst) : EndsWith ⟨[], solution⟩ (.ok solution)
  | failed {left right : Ty} {rest : List Constraint} {solution : Subst} {error : SemanticError}
      (h : step left right solution = .error error) :
      EndsWith ⟨(left, right) :: rest, solution⟩ (.error error)

/-- A worklist that has not ended can be looked at. -/
theorem exists_endsWith_or_leadsTo (worklist : Worklist) :
    (∃ ending, worklist.EndsWith ending) ∨ ∃ after, worklist.LeadsTo after := by
  obtain ⟨pending, solution⟩ := worklist
  cases pending with
  | nil => exact Or.inl ⟨_, .emptied solution⟩
  | cons constraint rest =>
    cases hstep : step constraint.1 constraint.2 solution with
    | error error => exact Or.inl ⟨_, .failed hstep⟩
    | ok move =>
      cases move with
      | replace parts => exact Or.inr ⟨_, .replace hstep⟩
      | bind name type => exact Or.inr ⟨_, .bind hstep⟩

/-! ## The measure -/

/-- The number of different variables that are left, and then the size of the equations. -/
def measure (worklist : Worklist) : Nat ×ₗ Nat :=
  toLex (distinct (constraintVars worklist.pending), totalSize worklist.pending)

/-- Every look lowers the measure. -/
theorem LeadsTo.measure_lt (h : worklist.LeadsTo after) : after.measure < worklist.measure := by
  unfold measure
  rw [Prod.Lex.toLex_lt_toLex]
  cases h with
  | @replace left right rest parts solution hstep =>
    obtain ⟨hsize, hvars⟩ := step_replace hstep
    have hsub : ∀ x ∈ constraintVars (parts ++ rest),
        x ∈ constraintVars ((left, right) :: rest) := by
      intro x hx
      rw [constraintVars_append, List.mem_append] at hx
      exact List.mem_append.2 (hx.imp_left (hvars x))
    have hless : totalSize (parts ++ rest) < totalSize ((left, right) :: rest) := by
      simp only [totalSize_append, totalSize]
      omega
    rcases (distinct_le_of_subset hsub).lt_or_eq with hfewer | hsame
    · exact Or.inl hfewer
    · exact Or.inr ⟨hsame, hless⟩
  | @bind left right type rest solution name hstep =>
    obtain ⟨hname, htype, hself⟩ := step_bind hstep
    refine Or.inl (distinct_lt_of_subset (fun x hx => ?_) (List.mem_append_left _ hname) ?_)
    · rcases mem_constraintVars_substitute hx with ⟨hx, -⟩ | hx
      · exact List.mem_append_right _ hx
      · exact List.mem_append_left _ (htype x hx)
    · intro hmem
      rcases mem_constraintVars_substitute hmem with ⟨-, hne⟩ | hmem
      · exact hne rfl
      · exact hself hmem

/-- Looks cannot go on forever, whatever was bound before. -/
theorem wellFounded_leadsTo : WellFounded fun after before : Worklist => before.LeadsTo after :=
  Subrelation.wf (fun h => h.measure_lt) (InvImage.wf measure wellFounded_lt)

theorem exists_end (worklist : Worklist) :
    ∃ last ending, ReflTransGen LeadsTo worklist last ∧ last.EndsWith ending := by
  induction worklist using wellFounded_leadsTo.induction with
  | _ worklist ih =>
    rcases worklist.exists_endsWith_or_leadsTo with ⟨ending, hends⟩ | ⟨after, hleads⟩
    · exact ⟨worklist, ending, .refl, hends⟩
    · obtain ⟨last, ending, hreaches, hends⟩ := ih after hleads
      exact ⟨last, ending, .head hleads hreaches, hends⟩

/-! ## What the looks find -/

theorem EndsWith.solve_eq (h : worklist.EndsWith ending) :
    solve worklist.pending worklist.solution = ending := by
  cases h with
  | emptied solution => rw [Unify.solve_eq, nextBinding]
  | failed hstep => rw [Unify.solve_eq, nextBinding_cons, hstep]

theorem LeadsTo.solve_eq (h : worklist.LeadsTo after) :
    solve worklist.pending worklist.solution = solve after.pending after.solution := by
  cases h with
  | replace hstep => rw [Unify.solve_eq, nextBinding_cons, hstep, ← Unify.solve_eq]
  | bind hstep => rw [Unify.solve_eq, nextBinding_cons, hstep]

/-- Solving equations finds what looking at them one after the other ends with. -/
theorem solve_eq_of_reaches (h : ReflTransGen LeadsTo worklist after)
    (hends : after.EndsWith ending) : solve worklist.pending worklist.solution = ending := by
  induction h using ReflTransGen.head_induction_on with
  | refl => exact hends.solve_eq
  | head hleads _ ih => rw [hleads.solve_eq, ih]

end Worklist

/-! ## Growing equations -/

/-- Every place of a variable grows to the size of the type that is put there. -/
theorem typeSize_apply_single (name : String) (type target : Ty) :
    typeSize ((Subst.single name type).apply target) + target.occurrences.count name
      = typeSize target + target.occurrences.count name * typeSize type := by
  induction target with
  | var other =>
    by_cases h : other = name
    · simp [Subst.apply, Subst.get?_single, Ty.occurrences, typeSize, h]
      omega
    · simp [Subst.apply, Subst.get?_single, Ty.occurrences, typeSize, h]
  | con _ => simp [Subst.apply, Ty.occurrences, typeSize]
  | arrow domain codomain ihd ihc =>
    simp only [Subst.apply, Ty.occurrences, typeSize, List.count_append, Nat.add_mul]
    omega

/-- An arrow in the place of a variable makes an equation larger. -/
theorem totalSize_substitute_lt {name : String} {type : Ty} (harrow : type.isArrow = true)
    {constraint : Constraint} (h : name ∈ constraintVars [constraint]) :
    totalSize [constraint] < totalSize [substitute name type constraint] := by
  obtain ⟨left, right⟩ := constraint
  have hplaces : 0 < left.occurrences.count name + right.occurrences.count name := by
    have := List.count_pos_iff.2 h
    simpa [constraintVars, List.count_append] using this
  have htype : 2 ≤ typeSize type := by
    cases type with
    | arrow domain codomain =>
      have := typeSize_pos domain
      simp only [typeSize]
      omega
    | var _ | con _ => simp [Ty.isArrow] at harrow
  have hleft := typeSize_apply_single name type left
  have hright := typeSize_apply_single name type right
  have hmore :=
    Nat.mul_le_mul_left (left.occurrences.count name + right.occurrences.count name) htype
  simp only [Nat.add_mul] at hmore
  simp only [totalSize, substitute]
  omega

/-- An equation between a variable and an arrow without it binds the variable. -/
theorem step_var_arrow {name : String} {type : Ty} (harrow : type.isArrow = true)
    (hself : name ∉ type.occurrences) : step (.var name) type .empty = .ok (.bind name type) := by
  cases type with
  | arrow domain codomain =>
    have hnot : (Ty.arrow domain codomain).contains name = false := by
      rw [Bool.eq_false_iff, Ne, Ty.contains_iff]
      exact hself
    simp [step, meet, hnot]
  | var _ | con _ => simp [Ty.isArrow] at harrow

end Unify

open Unify Unify.Worklist

/--
Unification terminates.  There is no endless series of looks at equations, and the series that
starts with the given ones empties the worklist or fails, which is what unification returns.  This
does not take equations that only become smaller: binding a variable to an arrow makes every
equation larger in which the variable occurs.
-/
theorem unify_terminates (constraints : List Constraint) :
    (∀ run : Nat → Worklist, run 0 = ⟨constraints, .empty⟩ →
        ∃ n, ¬ (run n).LeadsTo (run (n + 1)))
      ∧ (∃ last ending, ReflTransGen Worklist.LeadsTo ⟨constraints, .empty⟩ last
          ∧ last.EndsWith ending ∧ unify constraints = ending.map Subst.merge)
      ∧ ∀ name type, type.isArrow = true → name ∉ type.occurrences →
          (∀ constraint ∈ constraints, name ∈ constraintVars [constraint]) →
          Worklist.LeadsTo ⟨(.var name, type) :: constraints, .empty⟩
              ⟨constraints.map (substitute name type), .single name type⟩
            ∧ ∀ constraint ∈ constraints,
              totalSize [constraint] < totalSize [substitute name type constraint] := by
  refine ⟨fun run _ => ?_, ?_, fun name type harrow hself hoccurs => ⟨?_, ?_⟩⟩
  · have : IsWellFounded Worklist fun after before => before.LeadsTo after :=
      ⟨wellFounded_leadsTo⟩
    exact WellFounded.not_rel_apply_succ (r := fun after before => before.LeadsTo after) run
  · obtain ⟨last, ending, hreaches, hends⟩ := exists_end ⟨constraints, .empty⟩
    refine ⟨last, ending, hreaches, hends, ?_⟩
    rw [unify_eq_map, ← solve_eq_of_reaches hreaches hends]
  · exact .bind (step_var_arrow harrow hself)
  · exact fun constraint hmem => totalSize_substitute_lt harrow (hoccurs constraint hmem)

/-- Equations that share variables, and grow when {lit}`"a"` is bound to an arrow. -/
def sharing : List Constraint :=
  [(.var "a", .var "b"), (.arrow (.var "a") (.var "c"), .var "a")]

theorem unify_terminates_sharing :
    (∃ last ending, ReflTransGen Worklist.LeadsTo ⟨sharing, .empty⟩ last
        ∧ last.EndsWith ending ∧ unify sharing = ending.map Subst.merge)
      ∧ Worklist.LeadsTo ⟨(.var "a", .arrow .int .int) :: sharing, .empty⟩
          ⟨sharing.map (substitute "a" (.arrow .int .int)), .single "a" (.arrow .int .int)⟩
      ∧ ∀ constraint ∈ sharing,
          totalSize [constraint] < totalSize [substitute "a" (.arrow .int .int) constraint] := by
  refine ⟨(unify_terminates sharing).2.1, ?_⟩
  exact (unify_terminates sharing).2.2 "a" (.arrow .int .int) rfl (by decide) (by decide)

end WhileLang

import WhileLang.Proofs.Ty.Cycles

/-!
# Most general unifiers

Unification works off a list of equations from the front and stores bindings in the order they are
found.  A variable is bound only once, and is gone from the equations after that, so a bound type
mentions only variables that are bound later or never.

Main definitions:

- Predicate {lit}`Subst.Unifies`: a substitution makes both sides of all equations equal.
- Structure {lit}`Subst.IsMostGeneral`: what is promised of a substitution that unification finds.
- Structure {lit}`Unify.Progress`: the invariant of unification, which relates the bindings and the
  equations that are left to the equations at the start.

Main results:

- Theorem {lit}`Unify.nextBinding_spec`: working off equations up to a binding loses no assignment
  and gains none, and fails only if there is none.
- Theorem {lit}`unify_isMostGeneral`: unification finds a most general unifier or there is none.
-/

namespace WhileLang

/-- A substitution makes both sides of all equations equal. -/
def Subst.Unifies (subst : Subst) (constraints : List Constraint) : Prop :=
  ∀ constraint ∈ constraints, subst.apply constraint.1 = subst.apply constraint.2

/-- An idempotent unifier through which all others factor, over the variables of the equations. -/
structure Subst.IsMostGeneral (subst : Subst) (constraints : List Constraint) : Prop where
  isIdempotent : subst.isIdempotent = true
  apply_apply : ∀ type, subst.apply (subst.apply type) = subst.apply type
  unifies : subst.Unifies constraints
  binds_only : ∀ x, subst.binds x = true → x ∈ Unify.constraintVars constraints
  mentions_only : ∀ entry ∈ subst.entries, ∀ y ∈ entry.2.occurrences,
    y ∈ Unify.constraintVars constraints
  absorbed : ∀ other : Subst, other.Unifies constraints →
    ∀ x, other.apply (subst.apply (.var x)) = other.apply (.var x)

theorem Subst.unifies_iff_solves {subst : Subst} {constraints : List Constraint} :
    subst.Unifies constraints ↔ Solves (fun x => subst.apply (.var x)) constraints := by
  simp only [Unifies, Solves, ← apply_eq_replace]

namespace Unify

/-! ## Steps -/

/-- The two ways in which equations can have no solution. -/
def IsClash (error : SemanticError) : Prop :=
  (∃ left right, error = .typeMismatch left right) ∨ ∃ name type, error = .infiniteType name type

/-- What a step on an equation says about the assignments that solve it. -/
def StepSpec (left right : Ty) : Except SemanticError Move → Prop
  | .error error => IsClash error ∧ ∀ f : String → Ty, left.replace f ≠ right.replace f
  | .ok (.replace parts) => ∀ f, left.replace f = right.replace f ↔ Solves f parts
  | .ok (.bind x type) => ∀ f : String → Ty, left.replace f = right.replace f ↔ f x = type.replace f

/-- Meeting a variable that is not bound yet binds it, unless it occurs in the arrow it meets. -/
theorem meet_spec {x : String} {type left right : Ty} {solution : Subst}
    (hfree : solution.binds x = false)
    (heq : ∀ f : String → Ty, left.replace f = right.replace f ↔ f x = type.replace f) :
    StepSpec left right (meet x type solution) := by
  have hget : solution.get? x = none := by simpa [Subst.binds] using hfree
  simp only [meet, hget]
  split
  · rename_i harrow
    rw [Bool.and_eq_true, Ty.contains_iff] at harrow
    refine ⟨Or.inr ⟨x, type, rfl⟩, fun f h => ?_⟩
    exact Ty.replace_ne_of_mem_arrow harrow.1 harrow.2 ((heq f).1 h)
  · exact heq

theorem step_spec {left right : Ty} {solution : Subst}
    (hfree : ∀ x ∈ left.occurrences ++ right.occurrences, solution.binds x = false) :
    StepSpec left right (step left right solution) := by
  cases left with
  | var a =>
    have ha : solution.binds a = false := hfree a (by simp [Ty.occurrences])
    cases right with
    | var b =>
      simp only [step]
      split
      · rename_i hab
        simp [StepSpec, hab]
      · exact meet_spec ha fun f => Iff.rfl
    | con c => exact meet_spec ha fun f => Iff.rfl
    | arrow d c => exact meet_spec ha fun f => Iff.rfl
  | con a =>
    cases right with
    | var b => exact meet_spec (hfree b (by simp [Ty.occurrences])) fun f => eq_comm
    | con b =>
      simp only [step]
      split
      · rename_i hab
        simp [StepSpec, hab]
      · rename_i hab
        exact ⟨Or.inl ⟨_, _, rfl⟩, fun f h => hab (by simpa [Ty.replace] using h)⟩
    | arrow d c => exact ⟨Or.inl ⟨_, _, rfl⟩, fun f h => by simp [Ty.replace] at h⟩
  | arrow d c =>
    cases right with
    | var b => exact meet_spec (hfree b (by simp [Ty.occurrences])) fun f => eq_comm
    | con b => exact ⟨Or.inl ⟨_, _, rfl⟩, fun f h => by simp [Ty.replace] at h⟩
    | arrow d' c' => simp [step, StepSpec, Ty.replace, solves_cons]

/-! ## Up to the next binding -/

/-- What working off equations up to a binding says about the assignments that solve them. -/
def BindingSpec (pending : List Constraint) : Except SemanticError (Option Binding) → Prop
  | .error error => IsClash error ∧ ∀ f, ¬Solves f pending
  | .ok none => ∀ f, Solves f pending
  | .ok (some next) =>
    ∀ f, Solves f pending ↔ f next.name = next.type.replace f ∧ Solves f next.rest

theorem nextBinding_spec {pending : List Constraint} {solution : Subst}
    (hfree : ∀ x ∈ constraintVars pending, solution.binds x = false) :
    BindingSpec pending (nextBinding pending solution) := by
  fun_induction nextBinding pending solution with
  | case1 => exact solves_nil
  | case2 left right rest error stepped =>
    have hstep : StepSpec left right (step left right solution) :=
      step_spec fun x hx => hfree x (List.mem_append_left _ hx)
    rw [stepped] at hstep
    exact ⟨hstep.1, fun f h => hstep.2 f (solves_cons.1 h).1⟩
  | case3 left right rest parts stepped ih =>
    have hstep : StepSpec left right (step left right solution) :=
      step_spec fun x hx => hfree x (List.mem_append_left _ hx)
    rw [stepped] at hstep
    have hsame (f : String → Ty) : Solves f ((left, right) :: rest) ↔ Solves f (parts ++ rest) := by
      rw [solves_cons, solves_append, hstep f]
    have hrest := ih fun x hx => by
      rw [constraintVars_append, List.mem_append] at hx
      rcases hx with hx | hx
      · exact hfree x (List.mem_append_left _ ((step_replace stepped).2 x hx))
      · exact hfree x (List.mem_append_right _ hx)
    revert hrest
    unfold BindingSpec
    split <;> simp only [hsame, imp_self]
  | case4 left right rest name type stepped =>
    have hstep : StepSpec left right (step left right solution) :=
      step_spec fun x hx => hfree x (List.mem_append_left _ hx)
    rw [stepped] at hstep
    intro f
    rw [solves_cons, hstep f]

/-! ## The invariant -/

/--
Bindings in the order they were found: no later binding mentions a variable that is bound already,
and none its own variable.
-/
def Triangular : List (String × Ty) → Prop
  | [] => True
  | (x, type) :: later =>
    x ∉ type.occurrences ∧ (∀ entry ∈ later, entry.1 ≠ x ∧ x ∉ entry.2.occurrences)
      ∧ Triangular later

/-- The bindings found and the equations left, against the equations at the start. -/
structure Progress (constraints pending : List Constraint) (solution : Subst) : Prop where
  triangular : Triangular solution.entries
  /-- A variable that is bound is gone from the equations. -/
  gone : ∀ x ∈ constraintVars pending, solution.binds x = false
  pending_within : ∀ x ∈ constraintVars pending, x ∈ constraintVars constraints
  entries_within : ∀ entry ∈ solution.entries, entry.1 ∈ constraintVars constraints
    ∧ ∀ y ∈ entry.2.occurrences, y ∈ constraintVars constraints
  /-- No assignment is lost, and none is gained. -/
  solves_iff : ∀ f, Solves f constraints
    ↔ (∀ entry ∈ solution.entries, f entry.1 = entry.2.replace f) ∧ Solves f pending

theorem Progress.start (constraints : List Constraint) :
    Progress constraints constraints .empty where
  triangular := trivial
  gone := by simp [Subst.binds]
  pending_within := fun _ hx => hx
  entries_within := by simp [Subst.empty]
  solves_iff := by simp [Subst.empty]

/-- A variable that has no entry yet gets one behind all others. -/
theorem rebind_eq_append {x : String} {type : Ty} {entries : List (String × Ty)}
    (h : ∀ entry ∈ entries, entry.1 ≠ x) :
    Subst.rebind x type entries = entries ++ [(x, type)] := by
  induction entries with
  | nil => rfl
  | cons entry rest ih =>
    obtain ⟨bound, old⟩ := entry
    rw [Subst.rebind, if_neg (h (bound, old) (by simp)),
      ih fun entry hentry => h entry (List.mem_cons_of_mem _ hentry), List.cons_append]

theorem Triangular.append {entries : List (String × Ty)} {x : String} {type : Ty}
    (h : Triangular entries) (hself : x ∉ type.occurrences)
    (hnew : ∀ entry ∈ entries, entry.1 ≠ x ∧ entry.1 ∉ type.occurrences) :
    Triangular (entries ++ [(x, type)]) := by
  induction entries with
  | nil => exact ⟨hself, by simp, trivial⟩
  | cons entry rest ih =>
    obtain ⟨y, bound⟩ := entry
    obtain ⟨hy, hlater, hrest⟩ := h
    refine ⟨hy, fun other hother => ?_, ih hrest fun e he => hnew e (List.mem_cons_of_mem _ he)⟩
    rcases List.mem_append.1 hother with hother | hother
    · exact hlater other hother
    · obtain rfl := List.mem_singleton.1 hother
      have := hnew (y, bound) (by simp)
      exact ⟨this.1.symm, this.2⟩

/-- A binding that was found keeps the invariant, once it is stored and substituted. -/
theorem Progress.bind {constraints pending : List Constraint} {solution : Subst} {next : Binding}
    (h : Progress constraints pending solution)
    (hnext : nextBinding pending solution = .ok (some next)) :
    Progress constraints (next.rest.map (substitute next.name next.type))
      (solution.insert next.name next.type) := by
  obtain ⟨hname, hsub, hself⟩ := nextBinding_some hnext
  have hfree : solution.binds next.name = false := h.gone _ hname
  have hentries : (solution.insert next.name next.type).entries
      = solution.entries ++ [(next.name, next.type)] := by
    refine rebind_eq_append fun entry hentry heq => ?_
    have := Subst.binds_iff.2 ⟨entry.2, hentry⟩
    rw [heq, hfree] at this
    cases this
  have hspec := nextBinding_spec h.gone
  rw [hnext] at hspec
  have hwithin : ∀ x ∈ constraintVars (next.rest.map (substitute next.name next.type)),
      x ∈ constraintVars pending ∧ x ≠ next.name := by
    intro x hx
    rcases mem_constraintVars_substitute hx with ⟨hx, hne⟩ | hx
    · exact ⟨hsub x (List.mem_append_right _ hx), hne⟩
    · exact ⟨hsub x (List.mem_append_left _ hx), fun heq => hself (heq ▸ hx)⟩
  constructor
  case triangular =>
    rw [hentries]
    refine h.triangular.append hself fun entry hentry => ?_
    have hbinds := Subst.binds_iff.2 ⟨entry.2, hentry⟩
    constructor
    · intro heq
      simp [heq, hfree] at hbinds
    · intro hmem
      simp [h.gone _ (hsub _ (List.mem_append_left _ hmem))] at hbinds
  case gone =>
    intro x hx
    obtain ⟨hx, hne⟩ := hwithin x hx
    have := h.gone x hx
    simpa [Subst.binds, Subst.get?_insert, hne] using this
  case pending_within =>
    exact fun x hx => h.pending_within x (hwithin x hx).1
  case entries_within =>
    rw [hentries]
    intro entry hentry
    rcases List.mem_append.1 hentry with hentry | hentry
    · exact h.entries_within entry hentry
    · obtain rfl := List.mem_singleton.1 hentry
      exact ⟨h.pending_within _ hname,
        fun y hy => h.pending_within _ (hsub y (List.mem_append_left _ hy))⟩
  case solves_iff =>
    intro f
    rw [h.solves_iff, hspec f, hentries]
    simp only [List.mem_append, List.mem_singleton, or_imp, forall_and, forall_eq]
    constructor
    · rintro ⟨hbound, hbind, hrest⟩
      exact ⟨⟨hbound, hbind⟩, (solves_substitute hbind).2 hrest⟩
    · rintro ⟨⟨hbound, hbind⟩, hrest⟩
      exact ⟨hbound, hbind, (solves_substitute hbind).1 hrest⟩

/-- A run of unification ends with bindings that hold all solutions, or there is no solution. -/
theorem solve_spec {constraints pending : List Constraint} {solution : Subst}
    (h : Progress constraints pending solution) :
    match solve pending solution with
    | .error error => IsClash error ∧ ∀ f, ¬Solves f constraints
    | .ok final => Progress constraints [] final := by
  fun_induction solve pending solution with
  | case1 pending solution error found =>
    have hspec := nextBinding_spec h.gone
    rw [found] at hspec
    exact ⟨hspec.1, fun f hf => hspec.2 f ((h.solves_iff f).1 hf).2⟩
  | case2 pending solution found =>
    have hspec := nextBinding_spec h.gone
    rw [found] at hspec
    constructor
    case triangular => exact h.triangular
    case gone => simp [constraintVars]
    case pending_within => simp [constraintVars]
    case entries_within => exact h.entries_within
    case solves_iff =>
      intro f
      rw [h.solves_iff]
      simp [hspec f]
  | case3 pending solution next found ih => exact ih (h.bind found)

theorem Progress.of_solve {constraints : List Constraint} {found : Subst}
    (h : solve constraints .empty = .ok found) : Progress constraints [] found := by
  have hspec := solve_spec (Progress.start constraints)
  rwa [h] at hspec

/-! ## Merged bindings -/

/-- Place of a variable among bindings, counted from the end. -/
def height (x : String) : List (String × Ty) → Nat
  | [] => 0
  | (y, _) :: later => if y = x then later.length + 1 else height x later

theorem height_le_length (x : String) (entries : List (String × Ty)) :
    height x entries ≤ entries.length := by
  induction entries with
  | nil => simp [height]
  | cons entry rest ih =>
    simp only [height, List.length_cons]
    split <;> omega

/-- A variable that a bound type mentions is bound later, if at all. -/
theorem Triangular.height_lt {entries : List (String × Ty)} (h : Triangular entries) :
    ∀ entry ∈ entries, ∀ y ∈ entry.2.occurrences, height y entries < height entry.1 entries := by
  induction entries with
  | nil => simp
  | cons first later ih =>
    obtain ⟨x, type⟩ := first
    obtain ⟨hself, hlater, hrest⟩ := h
    intro entry hentry y hy
    rcases List.mem_cons.1 hentry with rfl | hentry
    · have hxy : x ≠ y := fun heq => hself (heq ▸ hy)
      have := height_le_length y later
      simp only [height, if_pos, if_neg hxy]
      omega
    · obtain ⟨hne, hnot⟩ := hlater entry hentry
      have hxy : x ≠ y := fun heq => hnot (heq ▸ hy)
      simp only [height, if_neg hxy, if_neg hne.symm]
      exact ih hrest entry hentry y hy

/-- The bindings have no cycle, as variables lead only to such as are bound later. -/
theorem Triangular.isAcyclic {subst : Subst} (h : Triangular subst.entries) :
    subst.IsAcyclic := by
  refine Subst.isAcyclic_of_rank (fun x => height x subst.entries) fun x y hxy => ?_
  obtain ⟨type, hget, hy, -⟩ := hxy
  exact h.height_lt _ (Subst.mem_entries_of_get? hget) y hy

/-- Bindings are looked up as they are stored, since no variable is bound twice. -/
theorem Triangular.lookup_eq_some {entries : List (String × Ty)} (h : Triangular entries)
    {x : String} {type : Ty} (hmem : (x, type) ∈ entries) : entries.lookup x = some type := by
  induction entries with
  | nil => cases hmem
  | cons first later ih =>
    obtain ⟨y, other⟩ := first
    obtain ⟨-, hlater, hrest⟩ := h
    rcases List.mem_cons.1 hmem with heq | hmem
    · cases heq
      exact List.lookup_cons_self
    · have hne : x ≠ y := (hlater _ hmem).1
      rw [List.lookup_cons, beq_eq_false_iff_ne.2 hne]
      exact ih hrest hmem

/-- The merged bindings solve the equations that the bindings were found for. -/
theorem Progress.solves_merge {constraints : List Constraint} {solution : Subst}
    (h : Progress constraints [] solution) :
    Solves (fun x => solution.merge.apply (.var x)) constraints := by
  rw [h.solves_iff]
  refine ⟨fun entry hentry => ?_, solves_nil _⟩
  have hget : solution.get? entry.1 = some entry.2 := h.triangular.lookup_eq_some hentry
  calc
    solution.merge.apply (.var entry.1) = solution.merge.apply (solution.apply (.var entry.1)) :=
      (Subst.apply_settle_apply h.triangular.isAcyclic.merge_isIdempotent _).symm
    _ = solution.merge.apply entry.2 := by simp [Subst.apply, hget]
    _ = entry.2.replace fun x => solution.merge.apply (.var x) := Subst.apply_eq_replace _ _

/-- An assignment that agrees with all bindings is not changed by applying them first. -/
theorem replace_apply_of_agrees {f : String → Ty} {subst : Subst}
    (h : ∀ entry ∈ subst.entries, f entry.1 = entry.2.replace f) (type : Ty) :
    (subst.apply type).replace f = type.replace f := by
  rw [Subst.apply_eq_replace, Ty.replace_replace]
  refine Ty.replace_congr fun x _ => ?_
  cases hx : subst.get? x with
  | none => simp [Subst.apply, hx, Ty.replace]
  | some bound => simp [Subst.apply, hx, h _ (Subst.mem_entries_of_get? hx)]

/-- Every solution of the equations factors through the merged bindings. -/
theorem Progress.replace_merge {constraints : List Constraint} {solution : Subst}
    (h : Progress constraints [] solution) {f : String → Ty} (hf : Solves f constraints)
    (type : Ty) : (solution.merge.apply type).replace f = type.replace f :=
  Subst.replace_apply_settle (replace_apply_of_agrees ((h.solves_iff f).1 hf).1) _ type

/-- A substitution that solves the equations passes the final check. -/
theorem checkSolution_eq_ok {subst : Subst} {constraints : List Constraint}
    (h : subst.Unifies constraints) : checkSolution subst constraints = .ok () := by
  induction constraints with
  | nil => rfl
  | cons constraint rest ih =>
    obtain ⟨left, right⟩ := constraint
    rw [checkSolution, if_pos (h (left, right) (by simp))]
    exact ih fun constraint hmem => h constraint (List.mem_cons_of_mem _ hmem)

theorem Progress.merge_isMostGeneral {constraints : List Constraint} {solution : Subst}
    (h : Progress constraints [] solution) : solution.merge.IsMostGeneral constraints where
  isIdempotent := h.triangular.isAcyclic.merge_isIdempotent
  apply_apply := Subst.apply_apply_of_isIdempotent h.triangular.isAcyclic.merge_isIdempotent
  unifies := Subst.unifies_iff_solves.2 h.solves_merge
  binds_only := by
    intro x hx
    rw [Subst.merge, Subst.binds_settle] at hx
    obtain ⟨type, hmem⟩ := Subst.binds_iff.1 hx
    exact (h.entries_within _ hmem).1
  mentions_only :=
    Subst.forall_mem_occurrences_settle (fun entry hentry => (h.entries_within entry hentry).2) _
  absorbed := by
    intro other hother x
    rw [Subst.apply_eq_replace other, Subst.apply_eq_replace other (.var x)]
    exact h.replace_merge (Subst.unifies_iff_solves.1 hother) (.var x)

end Unify

/-- Unification merges the bindings found; the final check never fails. -/
theorem unify_eq_map (constraints : List Constraint) :
    unify constraints = (Unify.solve constraints .empty).map Subst.merge := by
  unfold unify
  cases hsolve : Unify.solve constraints .empty with
  | error error => rfl
  | ok found =>
    have hunifies := (Unify.Progress.of_solve hsolve).merge_isMostGeneral.unifies
    simp [Unify.checkSolution_eq_ok hunifies, Except.map]

theorem unify_eq_ok {constraints : List Constraint} {subst : Subst} :
    unify constraints = .ok subst ↔
      ∃ found, Unify.solve constraints .empty = .ok found ∧ subst = found.merge := by
  rw [unify_eq_map]
  cases Unify.solve constraints .empty with
  | error error => simp [Except.map]
  | ok found => simp [Except.map, eq_comm]

/-- What unification finds solves the equations. -/
theorem unify_solves {constraints : List Constraint} {subst : Subst}
    (h : unify constraints = .ok subst) :
    Solves (fun x => subst.apply (.var x)) constraints := by
  obtain ⟨found, hfound, rfl⟩ := unify_eq_ok.1 h
  exact (Unify.Progress.of_solve hfound).solves_merge

/--
Unification finds a most general unifier, or the equations have none.  It fails only for types
that clash, never because a variable was bound before or because the final check fails.
-/
theorem unify_isMostGeneral (constraints : List Constraint) :
    match unify constraints with
    | .ok subst => subst.IsMostGeneral constraints
    | .error error =>
      (∀ subst : Subst, ¬subst.Unifies constraints)
        ∧ ((∃ left right, error = .typeMismatch left right)
          ∨ ∃ name type, error = .infiniteType name type) := by
  have hspec := Unify.solve_spec (Unify.Progress.start constraints)
  unfold unify
  cases hsolve : Unify.solve constraints .empty with
  | error error =>
    rw [hsolve] at hspec
    refine ⟨fun subst h => ?_, hspec.1⟩
    exact hspec.2 _ (Subst.unifies_iff_solves.1 h)
  | ok solution =>
    rw [hsolve] at hspec
    have hgeneral := hspec.merge_isMostGeneral
    simp only [Unify.checkSolution_eq_ok hgeneral.unifies]
    exact hgeneral

end WhileLang

import WhileLang.Proofs.Term.BindingOrder
import WhileLang.Proofs.Term.Leaves
import WhileLang.Proofs.Term.PrincipalTypes

/-!
# Inferred types

Types are inferred for a program just if its functions have principal types one after the other, and
there is one typing of all functions and the entry point.  So two programs with the same typings are
accepted or rejected together, and have the same types up to a renaming of variables.

Main definitions:

- Function {lit}`Program.termOf`: the term of a function.
- Predicates {lit}`Program.IsSolvedBy` and {lit}`Program.HasJointType`: typings of a program.
- Structure {lit}`Program.Infers`: what inferred types are.
- Structure {lit}`Program.SameTypings`: programs with the same typings.

Main results:

- Theorem {lit}`Program.inferTypes_exact`: types are inferred wherever there are any.
- Theorem {lit}`Program.SameTypings.inferTypes`: programs with the same typings are judged alike.
-/

namespace WhileLang

/-! ## Translations over different programs -/

section

variable {program other : Program}

/-- Which functions are defined is all that a translation takes from the program. -/
theorem Expr.toTerm_congr (h : ∀ name, program.defines name = other.defines name) (scope : String)
    (expr : Expr) : expr.toTerm program scope = expr.toTerm other scope := by
  induction expr with
  | literal | var => rfl
  | math op left right ihl ihr | compare op left right ihl ihr | logic op left right ihl ihr =>
    rw [toTerm, toTerm, ihl, ihr]
  | not operand ih => rw [toTerm, toTerm, ih]
  | call name args ih =>
    have hargs (function : Term) : toTerm.applyTo program scope function args
        = toTerm.applyTo other scope function args := by
      induction args generalizing function with
      | nil => rfl
      | cons arg args ihargs =>
        rw [List.forall_mem_cons] at ih
        simp only [toTerm.applyTo, ih.1, ihargs ih.2]
    rw [toTerm, toTerm, h, hargs]

theorem Stmt.toTerm_congr (h : ∀ name, program.defines name = other.defines name) (scope : String)
    (stmt : Stmt) : stmt.toTerm program scope = stmt.toTerm other scope := by
  induction stmt with
  | assign name value => rw [toTerm, toTerm, value.toTerm_congr h]
  | seq first second ihf ihs => rw [toTerm, toTerm, ihf, ihs]
  | ifThen condition body ih | loop condition body ih =>
    rw [toTerm, toTerm, condition.toTerm_congr h, ih]
  | ifElse condition body alternative ihb iha =>
    rw [toTerm, toTerm, condition.toTerm_congr h, ihb, iha]

theorem FunctionDef.toTerm_congr (h : ∀ name, program.defines name = other.defines name)
    (function : FunctionDef) : function.toTerm program = function.toTerm other := by
  unfold toTerm
  simp only [function.result.toTerm_congr h, Stmt.toTerm_congr h]

end

/-! ## The definitions of a program -/

namespace Program

/-- The term of the effective definition of a name. -/
def termOf (program : Program) (name : String) : Term :=
  match program.effective name >>= fun function => function.toTerm program with
  | .ok term => term
  | .error _ => default

variable {program other : Program}

theorem termOf_eq {name : String} {function : FunctionDef} {term : Term}
    (hfunction : program.function? name = some function)
    (hterm : function.toTerm program = .ok term) : program.termOf name = term := by
  have heffective := effective_eq_ok.2 hfunction
  have hboth : (program.effective name >>= fun function => function.toTerm program) = .ok term := by
    rw [heffective]
    exact hterm
  unfold termOf
  rw [hboth]

/-- A name has an effective definition, which is translated. -/
def HasTerm (program : Program) (name : String) : Prop :=
  ∃ function, program.function? name = some function
    ∧ function.toTerm program = .ok (program.termOf name)

theorem HasTerm.isOver {name : String} (h : program.HasTerm name) :
    ∃ function, program.function? name = some function
      ∧ (program.termOf name).IsOver function.callees := by
  obtain ⟨function, hfunction, hterm⟩ := h
  exact ⟨function, hfunction, FunctionDef.toTerm_isOver hterm⟩

theorem defineAll_eq_defining {main whole : Term} {names : List String}
    (h : program.defineAll main names = .ok whole) :
    whole = .defining program.termOf main names ∧ ∀ name ∈ names, program.HasTerm name := by
  induction names generalizing whole with
  | nil =>
    cases h
    exact ⟨rfl, nofun⟩
  | cons name names ih =>
    obtain ⟨body, function, term, hbody, hfunction, hterm, rfl⟩ := defineAll_cons_eq_ok.1 h
    obtain ⟨rfl, hnames⟩ := ih hbody
    have heq := termOf_eq hfunction hterm
    exact ⟨by rw [← heq]; rfl,
      List.forall_mem_cons.2 ⟨⟨function, hfunction, heq.symm ▸ hterm⟩, hnames⟩⟩

/-- The term of a program defines all functions but the entry point around its term. -/
theorem toTerm_eq_defining {term : ProgramTerm} (h : program.toTerm = .ok term) :
    term.whole = .defining program.termOf (program.termOf entryPoint) program.bindingOrder
      ∧ term.order = program.bindingOrder
      ∧ ∀ name ∈ entryPoint :: program.bindingOrder, program.HasTerm name := by
  obtain ⟨main, hmain, hterm, hwhole, horder⟩ := toTerm_eq_ok h
  obtain ⟨hdefining, hnames⟩ := defineAll_eq_defining hwhole
  have heq := termOf_eq hmain hterm
  rw [← heq] at hdefining hterm
  exact ⟨hdefining, horder, List.forall_mem_cons.2 ⟨⟨main, hmain, hterm⟩, hnames⟩⟩

/-! ## Typings of a program -/

/-- Functions have principal types, one after the other. -/
def IsSolvedBy (program : Program) (general : String → Ty) : Prop :=
  Along (IsPrincipal program.termOf) (fun _ => none) general program.bindingOrder

/-- A type that the entry point has in one typing of all functions. -/
def HasJointType (program : Program) (general : String → Ty) (type : Ty) : Prop :=
  ∃ varTypes, JointlyTyped program.termOf (program.termOf entryPoint) (fun _ => none) general
    program.bindingOrder varTypes type

/-- Inferred types are principal types of the functions, and that of the entry point. -/
structure Infers (program : Program) (types : ProgramTypes) (general : String → Ty) : Prop where
  solved : program.IsSolvedBy general
  functions : types.functions.map (fun report => (report.name, report.signature))
    = program.bindingOrder.map fun name => (name, general name)
  main {type : Ty} : type.IsInstance types.main.signature ↔ program.HasJointType general type

theorem HasTerm.exists_isOver {name : String} (h : program.HasTerm name) :
    ∃ leaves, (program.termOf name).IsOver leaves := by
  obtain ⟨function, -, hover⟩ := h.isOver
  exact ⟨_, hover⟩

theorem sameDefinitions (h : ∀ name ∈ entryPoint :: program.bindingOrder, program.HasTerm name) :
    SameDefinitions program.termOf program.termOf program.bindingOrder :=
  fun name hmem => ⟨(h name (List.mem_cons_of_mem _ hmem)).exists_isOver, .refl _⟩

/-- Principal types of a program are unique up to their instances, and so are its typings. -/
theorem HasJointType.congr {general general' : String → Ty} {type : Ty}
    (hterms : ∀ name ∈ entryPoint :: program.bindingOrder, program.HasTerm name)
    (h : program.IsSolvedBy general) (h' : program.IsSolvedBy general')
    (hjoint : program.HasJointType general type) : program.HasJointType general' type := by
  obtain ⟨varTypes, hjoint⟩ := hjoint
  obtain ⟨leaves, hmain⟩ := (hterms entryPoint List.mem_cons_self).exists_isOver
  exact ⟨varTypes, hjoint.transfer hmain (.refl _) (sameDefinitions hterms) (.refl _)
    (h.sameInstances h' (sameDefinitions hterms) (.refl _))⟩

/-- Types are inferred for a program, or it has no typing. -/
theorem inferTypes_exact (h : ∃ term, program.toTerm = .ok term) :
    (∃ types general, program.inferTypes = .ok types ∧ program.Infers types general)
      ∨ ∃ error, program.inferTypes = .error error
          ∧ ∀ general, program.IsSolvedBy general →
              ∀ type, ¬ program.HasJointType general type := by
  obtain ⟨term, hterm⟩ := h
  obtain ⟨hwhole, horder, hterms⟩ := toTerm_eq_defining hterm
  have hover (name : String) (hmem : name ∈ entryPoint :: program.bindingOrder) :
      ∃ leaves, (program.termOf name).IsOver leaves :=
    (hterms name hmem).exists_isOver
  have hempty : Inference.empty.env.IsScoped := .empty
  rcases Term.infer_defining (hover _ List.mem_cons_self)
    (fun name hmem => hover name (List.mem_cons_of_mem _ hmem)) program.bindingOrder_sound.nodup
    hempty with ⟨after, general, constraints, row, hinfer, hsolved⟩ | ⟨error, after, hinfer, hnone⟩
  · rw [← hwhole] at hinfer
    have hsolve : after.env.solve = unify constraints := by
      rw [TypeEnv.solve, hsolved.determines.constraints_eq]
      rfl
    cases hsolution : unify constraints with
    | error error =>
      rw [hsolution] at hsolve
      refine .inr ⟨error, ?_, fun other hother type hjoint => ?_⟩
      · simp only [inferTypes, hterm, hinfer, hsolve, bind, Except.bind]
      · obtain ⟨varTypes, hjoint⟩ := hjoint.congr hterms hother hsolved.solved
        exact hsolved.determines.not_judged hempty hsolution varTypes type hjoint
    | ok solution =>
      rw [hsolution] at hsolve
      have hrow := hsolved.row_eq
      rw [← horder] at hrow
      obtain ⟨reports, hreports, hmap⟩ := hsolved.reports
      refine .inl ⟨⟨after.reports, after.env.report entryPoint (solution.apply row.type) row.first
        (after.env.subterms.size - 1 - term.order.length + 1) solution⟩, general, ?_,
        hsolved.solved, ?_, fun {type} => ?_⟩
      · simp only [inferTypes, hterm, hinfer, hsolve, hrow, bind, Except.bind, pure, Except.pure]
      · exact hreports ▸ hmap
      · -- The row of the entry point and that of the whole term have the same type.
        have htype : solution.apply row.type = solution.apply Inference.empty.nodeType :=
          (Subst.apply_eq_replace _ _).trans
            ((hsolved.row_type (unify_solves hsolution)).trans (Subst.apply_eq_replace _ _).symm)
        exact htype ▸ hsolved.determines.isInstance_iff hempty hsolution
  · rw [← hwhole] at hinfer
    refine .inr ⟨error, ?_, fun general hsolved => (hnone general hsolved).elim⟩
    simp only [inferTypes, hterm, hinfer, bind, Except.bind]

/-! ## Programs with the same typings -/

/-- Two programs are both translated or not, and then have the same typings. -/
structure SameTypings (program other : Program) : Prop where
  translated : (∃ term, program.toTerm = .ok term) ↔ ∃ term, other.toTerm = .ok term
  solved : (∃ term, program.toTerm = .ok term) →
    ∀ general, program.IsSolvedBy general ↔ other.IsSolvedBy general
  joint : (∃ term, program.toTerm = .ok term) →
    ∀ general type, program.HasJointType general type ↔ other.HasJointType general type

theorem inferTypes_of_toTerm {error : SemanticError} (h : program.toTerm = .error error) :
    program.inferTypes = .error error := by
  simp only [inferTypes, h, bind, Except.bind]

theorem Infers.hasJointType {types : ProgramTypes} {general : String → Ty}
    (h : program.Infers types general) : program.HasJointType general types.main.signature :=
  h.main.1 (.refl _)

/-- Programs with the same typings are accepted or rejected together, with the same types. -/
theorem SameTypings.inferTypes (h : program.SameTypings other) :
    (∃ types others general general', program.inferTypes = .ok types
        ∧ other.inferTypes = .ok others ∧ program.Infers types general
        ∧ other.Infers others general'
        ∧ (∀ name ∈ program.bindingOrder, (general name).IsVariant (general' name))
        ∧ types.main.signature.IsVariant others.main.signature)
      ∨ ∃ error error', program.inferTypes = .error error ∧ other.inferTypes = .error error' := by
  by_cases hterm : ∃ term, program.toTerm = .ok term
  · have hsolved := h.solved hterm
    have hjoint := h.joint hterm
    rcases inferTypes_exact hterm with ⟨types, general, htypes, hinfers⟩ | ⟨error, herror, hnone⟩
    · rcases inferTypes_exact (h.translated.1 hterm) with
        ⟨others, general', hothers, hinfers'⟩ | ⟨error, -, hnone⟩
      · -- Both families of types are principal for both programs.
        obtain ⟨term, hterm⟩ := hterm
        obtain ⟨-, -, hterms⟩ := toTerm_eq_defining hterm
        have hback := (hsolved general').2 hinfers'.solved
        refine .inl ⟨types, others, general, general', htypes, hothers, hinfers, hinfers',
          fun name hmem => ?_, Ty.SameInstances.isVariant fun type => ?_⟩
        · exact (hinfers.solved.sameInstances hback (sameDefinitions hterms) (.refl _) name
            hmem).isVariant
        · rw [hinfers.main, hinfers'.main, ← hjoint]
          exact ⟨fun hjoint => hjoint.congr hterms hinfers.solved hback,
            fun hjoint => hjoint.congr hterms hback hinfers.solved⟩
      · exact (hnone general ((hsolved general).1 hinfers.solved) _
          ((hjoint general _).1 hinfers.hasJointType)).elim
    · rcases inferTypes_exact (h.translated.1 hterm) with
        ⟨others, general', -, hinfers'⟩ | ⟨error', herror', -⟩
      · exact (hnone general' ((hsolved general').2 hinfers'.solved) _
          ((hjoint general' _).2 hinfers'.hasJointType)).elim
      · exact .inr ⟨error, error', herror, herror'⟩
  · have hother := mt h.translated.2 hterm
    cases hfirst : program.toTerm with
    | ok term => exact (hterm ⟨term, hfirst⟩).elim
    | error error =>
      cases hsecond : other.toTerm with
      | ok term => exact (hother ⟨term, hsecond⟩).elim
      | error error' =>
        exact .inr ⟨error, error', inferTypes_of_toTerm hfirst, inferTypes_of_toTerm hsecond⟩

end Program

end WhileLang

import WhileLang.Proofs.Term.Definitions
import WhileLang.Proofs.Term.Exactness

/-!
# Principal types

Definitions are solved one after the other.  Each gets a type of which exactly the types of its term
are instances, given those solved before, and the walk over all of them fails only where there is no
such type.

Main definitions:

- Function {lit}`extend` and predicate {lit}`Along`: what is known while definitions are solved.
- Predicate {lit}`IsPrincipal`: the instances of a type are the types of a definition.
- Structure {lit}`JointlyTyped`: one typing of all definitions and of the term behind them.
- Structure {lit}`SolvedDefinitions`: what the walk over definitions ends with.

Main results:

- Theorem {lit}`Along.sameInstances`: principal types are unique up to their instances.
- Theorem {lit}`Term.infer_defining`: the walk finds principal types, or there are none.
-/

namespace WhileLang

/-! ## What is known of names -/

/-- Some more names get general types. -/
def extend (known : String → Option Ty) (general : String → Ty) (names : List String)
    (name : String) : Option Ty :=
  if name ∈ names then some (general name) else known name

/-- Something holds of every definition in a list, of what is known before it, and of its type. -/
def Along (Holds : (String → Option Ty) → String → Ty → Prop) (known : String → Option Ty)
    (general : String → Ty) (names : List String) : Prop :=
  ∀ before name after, names = before ++ name :: after →
    Holds (extend known general before) name (general name)

section

variable {Holds : (String → Option Ty) → String → Ty → Prop} {known : String → Option Ty}
  {general other : String → Ty} {name : String} {names : List String}

@[simp]
theorem extend_nil : extend known general [] = known := by
  funext name
  simp [extend]

theorem extend_extend (first second : List String) :
    extend (extend known general first) general second
      = extend known general (first ++ second) := by
  funext name
  by_cases hfirst : name ∈ first
  · simp [extend, hfirst]
  · simp [extend, hfirst]

theorem extend_congr (h : ∀ name ∈ names, general name = other name) :
    extend known general names = extend known other names := by
  funext name
  unfold extend
  split
  · rename_i hmem
    rw [h name hmem]
  · rfl

theorem along_cons : Along Holds known general (name :: names) ↔
    Holds known name (general name)
      ∧ Along Holds (extend known general [name]) general names := by
  constructor
  · intro h
    refine ⟨?_, fun before other after heq => ?_⟩
    · have hfirst := h [] name names rfl
      rwa [extend_nil] at hfirst
    · rw [extend_extend]
      exact h (name :: before) other after (by rw [heq, List.cons_append])
  · rintro ⟨hfirst, hrest⟩ before other after heq
    cases before with
    | nil =>
      cases heq
      rwa [extend_nil]
    | cons first before =>
      cases heq
      have hother := hrest before other after rfl
      rwa [extend_extend] at hother

theorem Along.congr (h : Along Holds known general names)
    (hsame : ∀ name ∈ names, general name = other name) : Along Holds known other names := by
  intro before name after heq
  have hold := h before name after heq
  rw [heq] at hsame
  rw [extend_congr fun name hmem => hsame name (List.mem_append_left _ hmem),
    hsame name (by simp)] at hold
  exact hold

end

/-! ## Types over what is known -/

/-- The same is known of a name, up to instances. -/
def SameKnown (known known' : String → Option Ty) (name : String) : Prop :=
  Option.Rel Ty.SameInstances (known name) (known' name)

theorem SameKnown.refl (known : String → Option Ty) (name : String) :
    SameKnown known known name := by
  unfold SameKnown
  cases known name with
  | none => exact .none
  | some general => exact .some fun _ => Iff.rfl

theorem SameKnown.symm {known known' : String → Option Ty} {name : String}
    (h : SameKnown known known' name) : SameKnown known' known name := by
  unfold SameKnown at h ⊢
  generalize known name = first, known' name = second at h
  cases h with
  | some h => exact .some fun type => (h type).symm
  | none => exact .none

theorem SameKnown.extend {known known' : String → Option Ty} {general general' : String → Ty}
    {names : List String} (hgeneral : ∀ name ∈ names, (general name).SameInstances (general' name))
    {name : String} (h : SameKnown known known' name) :
    SameKnown (WhileLang.extend known general names) (WhileLang.extend known' general' names)
      name := by
  unfold SameKnown WhileLang.extend
  split
  · rename_i hmem
    exact .some (hgeneral name hmem)
  · exact h

/-- A term has the same types wherever the same is known of the names in it. -/
theorem Term.HasType.congr {names : List String} {term : Term} (hover : term.IsOver names)
    {known known' : String → Option Ty} (hknown : ∀ name ∈ names, SameKnown known known' name)
    {varTypes : TermVar → Ty} {type : Ty} (h : term.HasType known varTypes type) :
    term.HasType known' varTypes type := by
  induction h with
  | @var leaf type h =>
    refine .var ?_
    unfold TermVar.HasType at h ⊢
    cases hscope : leaf.scope with
    | some scope => simpa only [hscope] using h
    | none =>
      simp only [hscope] at h ⊢
      cases hbuiltin : builtinType? leaf.name with
      | some builtin => simpa only [hbuiltin] using h
      | none =>
        simp only [hbuiltin] at h ⊢
        cases hscheme : schemeType? leaf.name with
        | some scheme => simpa only [hscheme] using h
        | none =>
          simp only [hscheme] at h ⊢
          have hsame := hknown leaf.name (hover hscope hbuiltin hscheme)
          unfold SameKnown at hsame
          generalize known leaf.name = first at hsame h
          generalize known' leaf.name = second at hsame ⊢
          cases hsame with
          | none => exact h
          | some hsame => exact (hsame type).1 h
  | literal value => exact .literal value
  | app _ _ ihf iha => exact .app (ihf hover.1) (iha hover.2)
  | abs _ ih => exact .abs (ih hover)

/-! ## Principal types -/

section

variable (terms : String → Term)

/-- The instances of a type are the types that a definition has, itself used with that type. -/
def IsPrincipal (known : String → Option Ty) (name : String) (general : Ty) : Prop :=
  ∀ type : Ty, type.IsInstance general ↔
    ∃ varTypes, varTypes (.global name) = type ∧ (terms name).HasType known varTypes type

/-- One typing of variables is a typing of all definitions in a list, and of the term behind. -/
structure JointlyTyped (main : Term) (known : String → Option Ty) (general : String → Ty)
    (names : List String) (varTypes : TermVar → Ty) (type : Ty) : Prop where
  definitions : Along (fun known name _ =>
    (terms name).HasType known varTypes (varTypes (.global name))) known general names
  main : main.HasType (extend known general names) varTypes type

end

section

variable {terms terms' : String → Term} {main : Term} {known known' : String → Option Ty}
  {general general' : String → Ty} {name : String} {names : List String} {varTypes : TermVar → Ty}
  {type : Ty}

theorem jointlyTyped_cons : JointlyTyped terms main known general (name :: names) varTypes type ↔
    (terms name).HasType known varTypes (varTypes (.global name))
      ∧ JointlyTyped terms main (extend known general [name]) general names varTypes type := by
  constructor
  · rintro ⟨hdefinitions, hmain⟩
    obtain ⟨hfirst, hrest⟩ := along_cons.1 hdefinitions
    exact ⟨hfirst, hrest, by rwa [extend_extend]⟩
  · rintro ⟨hfirst, hrest, hmain⟩
    rw [extend_extend] at hmain
    exact ⟨along_cons.2 ⟨hfirst, hrest⟩, hmain⟩

theorem jointlyTyped_nil :
    JointlyTyped terms main known general [] varTypes type ↔ main.HasType known varTypes type := by
  refine ⟨fun h => ?_, fun h => ⟨fun before other after heq => ?_, ?_⟩⟩
  · have hmain := h.main
    rwa [extend_nil] at hmain
  · simp at heq
  · rwa [extend_nil]

theorem JointlyTyped.congr (h : JointlyTyped terms main known general names varTypes type)
    (hsame : ∀ name ∈ names, general name = general' name) :
    JointlyTyped terms main known general' names varTypes type :=
  ⟨h.definitions.congr hsame, extend_congr hsame ▸ h.main⟩

/-- The types of two definitions are the same, whatever the names are taken to be. -/
def Term.SameTypes (term other : Term) : Prop :=
  ∀ (known : String → Option Ty) (varTypes : TermVar → Ty) (type : Ty),
    term.HasType known varTypes type ↔ other.HasType known varTypes type

namespace Term.SameTypes

variable {term other third function function' argument argument' : Term}

theorem refl (term : Term) : term.SameTypes term :=
  fun _ _ _ => Iff.rfl

theorem symm (h : term.SameTypes other) : other.SameTypes term :=
  fun known varTypes type => (h known varTypes type).symm

theorem trans (h : term.SameTypes other) (h' : other.SameTypes third) : term.SameTypes third :=
  fun known varTypes type => (h known varTypes type).trans (h' known varTypes type)

theorem app (hfunction : function.SameTypes function') (hargument : argument.SameTypes argument') :
    (app function argument).SameTypes (.app function' argument') := by
  intro known varTypes type
  constructor
  · rintro (_ | _ | ⟨h, h'⟩)
    exact .app ((hfunction ..).1 h) ((hargument ..).1 h')
  · rintro (_ | _ | ⟨h, h'⟩)
    exact .app ((hfunction ..).2 h) ((hargument ..).2 h')

theorem abs (param : TermVar) (h : term.SameTypes other) :
    (abs param term).SameTypes (.abs param other) := by
  intro known varTypes type
  constructor
  · rintro (_ | _ | _ | hbody)
    exact .abs ((h ..).1 hbody)
  · rintro (_ | _ | _ | hbody)
    exact .abs ((h ..).2 hbody)

theorem binary (operator : String) (hleft : term.SameTypes other)
    (hright : argument.SameTypes argument') :
    (binary operator term argument).SameTypes (.binary operator other argument') :=
  ((refl _).app hleft).app hright

end Term.SameTypes

/-- Definitions with the same types have the same principal types. -/
theorem IsPrincipal.congr {leaves : List String} (h : IsPrincipal terms known name type)
    (hover : (terms name).IsOver leaves) (hsame : (terms name).SameTypes (terms' name))
    (hknown : ∀ name ∈ leaves, SameKnown known known' name) :
    IsPrincipal terms' known' name type := by
  intro given
  refine (h given).trans (exists_congr fun varTypes => and_congr_right fun _ => ?_)
  rw [← hsame]
  exact ⟨fun htype => htype.congr hover hknown,
    fun htype => htype.congr hover fun name hmem => (hknown name hmem).symm⟩

theorem IsPrincipal.sameInstances {general general' : Ty} (h : IsPrincipal terms known name general)
    (h' : IsPrincipal terms known name general') : general.SameInstances general' :=
  fun type => (h type).trans (h' type).symm

/-! ### The same definitions over other types -/

/-- Definitions have the same types one by one. -/
def SameDefinitions (terms terms' : String → Term) (names : List String) : Prop :=
  ∀ name ∈ names, (∃ leaves, (terms name).IsOver leaves) ∧ (terms name).SameTypes (terms' name)

/-- Principal types are still principal where the same is known of all names. -/
theorem Along.isPrincipal_congr (h : Along (IsPrincipal terms) known general names)
    (hsame : SameDefinitions terms terms' names) (hknown : ∀ name, SameKnown known known' name) :
    Along (IsPrincipal terms') known' general names := by
  intro before name after heq
  obtain ⟨⟨leaves, hover⟩, htypes⟩ := hsame name (by simp [heq])
  refine (h before name after heq).congr hover htypes fun other _ => (hknown other).extend ?_
  exact fun _ _ _ => Iff.rfl

/-- Principal types are unique up to their instances. -/
theorem Along.sameInstances (h : Along (IsPrincipal terms) known general names)
    (h' : Along (IsPrincipal terms') known' general' names)
    (hsame : SameDefinitions terms terms' names) (hknown : ∀ name, SameKnown known known' name) :
    ∀ name ∈ names, (general name).SameInstances (general' name) := by
  induction names generalizing known known' with
  | nil => nofun
  | cons first names ih =>
    obtain ⟨hfirst, hrest⟩ := along_cons.1 h
    obtain ⟨hfirst', hrest'⟩ := along_cons.1 h'
    obtain ⟨⟨⟨leaves, hover⟩, htypes⟩, hsame⟩ := List.forall_mem_cons.1 hsame
    have hinstances : (general first).SameInstances (general' first) :=
      (hfirst.congr hover htypes fun name _ => hknown name).sameInstances hfirst'
    have hextended (name : String) : SameKnown (extend known general [first])
        (extend known' general' [first]) name :=
      (hknown name).extend fun other hmem => List.mem_singleton.1 hmem ▸ hinstances
    exact List.forall_mem_cons.2 ⟨hinstances, ih hrest hrest' hsame hextended⟩

/-- A joint typing is still one where the same is known of all names. -/
theorem JointlyTyped.transfer {main' : Term} {leaves : List String}
    (h : JointlyTyped terms main known general names varTypes type) (hmain : main.IsOver leaves)
    (hmainSame : main.SameTypes main') (hsame : SameDefinitions terms terms' names)
    (hknown : ∀ name, SameKnown known known' name)
    (hgeneral : ∀ name ∈ names, (general name).SameInstances (general' name)) :
    JointlyTyped terms' main' known' general' names varTypes type := by
  constructor
  · intro before name after heq
    obtain ⟨⟨leaves, hover⟩, htypes⟩ := hsame name (by simp [heq])
    rw [← htypes]
    refine (h.definitions before name after heq).congr hover fun other _ => (hknown other).extend ?_
    exact fun earlier hmem => hgeneral earlier (by simp [heq, hmem])
  · rw [← hmainSame]
    exact h.main.congr hmain fun other _ => (hknown other).extend hgeneral

end

/-! ## The walk over definitions -/

/-- The definition of a name, up to where it is solved, determines the types of its term. -/
theorem Term.definition_determines {leaves : List String} {bound : Term} (h : bound.IsOver leaves)
    {before : Inference} (hscoped : before.env.IsScoped) (name : TermVar) :
    ∃ solved constraints,
      bound.infer (before.withName name) = (.ok (before.withName name).nodeType, solved)
        ∧ solved.reports = before.reports ∧ solved.env.signatures = before.env.signatures
        ∧ TypeEnv.Determines before.within.env (before.defined name solved).env constraints
            (fun varTypes type =>
              varTypes name = type ∧ bound.HasType before.env.signature? varTypes type)
            (before.withName name).nodeType := by
  have hname := TypeEnv.variableType_determines hscoped.within name
  have hnameScoped : (before.withName name).env.IsScoped := hname.isScoped
  obtain ⟨hgrows, -⟩ := before.within.env.grows_variableType name
  have hsame : (before.withName name).env.signature? = before.env.signature? := hgrows.signature?
  obtain ⟨solved, hinferred⟩ := infer_exact h hnameScoped
  obtain ⟨constraints, hbound⟩ := hinferred.determines
  have hboth := hname.both hbound
  refine ⟨solved, _, hinferred.infer_eq, hinferred.reports,
    hinferred.signatures.trans hgrows.signatures,
    hboth.constrain (hname.below.mono hbound.nextVar_le) hbound.below hbound.below ?_ ?_⟩
  · rintro assignment varTypes ⟨hvar, htype⟩ heq
    rw [hsame] at htype
    exact ⟨hvar.symm.trans heq, htype⟩
  · rintro varTypes given ⟨hvar, htype⟩
    rw [← hsame] at htype
    refine ⟨.arrow given given, ⟨hvar.symm, htype⟩, fun assignment heq => ?_⟩
    obtain ⟨hleft, hright⟩ := Ty.arrow.inj heq
    exact ⟨hleft.trans hright.symm, hright⟩

/-- A term behind definitions, the first one outermost. -/
def Term.defining (terms : String → Term) (main : Term) (names : List String) : Term :=
  names.foldr (fun name body => .letIn (.global name) (terms name) body) main

/-- What the walk over definitions ends with, given the types it finds. -/
structure SolvedDefinitions (terms : String → Term) (main : Term) (names : List String)
    (before after : Inference) (general : String → Ty) (constraints : List Constraint)
    (row : Subterm) : Prop where
  solved : Along (IsPrincipal terms) before.env.signature? general names
  reports : ∃ reports, after.reports = before.reports ++ reports
    ∧ reports.map (fun report => (report.name, report.signature))
      = names.map fun name => (name, general name)
  determines : TypeEnv.Determines before.env after.env constraints
    (JointlyTyped terms main before.env.signature? general names) before.nodeType
  subterms : ∃ front rows, after.env.subterms.toList = front ++ row :: rows
    ∧ rows.length = names.length
  row_type {assignment : String → Ty} : Solves assignment constraints →
    row.type.replace assignment = before.nodeType.replace assignment

/-- What is known after a definition was solved. -/
theorem Inference.signature?_next {before solved : Inference} {name : String}
    (h : solved.env.signatures = before.env.signatures) {solution : Subst} {general : String → Ty}
    (hgeneral : general name = solution.apply (before.withName (.global name)).nodeType) :
    (before.next (.global name) solved solution).env.signature?
      = extend before.env.signature? general [name] := by
  funext other
  have hinsert : (before.next (.global name) solved solution).env.signature? other
      = if other = name then some (solution.apply (before.withName (.global name)).nodeType)
        else solved.env.signature? other :=
    Subst.get?_insert ⟨solved.env.signatures⟩ name other _
  have hsame : solved.env.signature? = before.env.signature? := by
    funext other
    unfold TypeEnv.signature?
    rw [h]
  rw [hinsert, hsame, ← hgeneral]
  unfold extend
  simp only [List.mem_singleton]
  split
  · rename_i heq
    rw [heq]
  · rfl

namespace SolvedDefinitions

variable {terms : String → Term} {main : Term} {names : List String} {before inside : Inference}
  {general : String → Ty} {constraints constraints' : List Constraint} {row : Subterm}

theorem congr (h : SolvedDefinitions terms main names before inside general constraints row)
    {other : String → Ty} (hsame : ∀ name ∈ names, general name = other name) :
    SolvedDefinitions terms main names before inside other constraints row where
  solved := h.solved.congr hsame
  reports := by
    obtain ⟨reports, hreports, hmap⟩ := h.reports
    refine ⟨reports, hreports, hmap.trans (List.map_congr_left fun name hmem => ?_)⟩
    rw [hsame name hmem]
  determines := by
    have hjudgement : JointlyTyped terms main before.env.signature? general names
        = JointlyTyped terms main before.env.signature? other names := by
      funext varTypes type
      exact propext ⟨fun h => h.congr hsame,
        fun h => h.congr fun name hmem => (hsame name hmem).symm⟩
    exact hjudgement ▸ h.determines
  subterms := h.subterms
  row_type := h.row_type

/-- Definitions are solved, if the first one is, and those behind it over its type. -/
theorem cons {name : String} {solved : Inference} {solution : Subst} (hscoped : before.env.IsScoped)
    (hreports : solved.reports = before.reports)
    (hsignatures : solved.env.signatures = before.env.signatures)
    (hdefinition : TypeEnv.Determines before.within.env
      (before.defined (.global name) solved).env constraints
      (fun varTypes type => varTypes (.global name) = type
        ∧ (terms name).HasType before.env.signature? varTypes type)
      (before.withName (.global name)).nodeType)
    (hsolution : unify constraints = .ok solution)
    (hgeneral : general name = solution.apply (before.withName (.global name)).nodeType)
    (h : SolvedDefinitions terms main names (before.next (.global name) solved solution) inside
      general constraints' row) :
    SolvedDefinitions terms main (name :: names) before
      (before.close (Term.defining terms main (name :: names)) (inside.withEnv
        (·.constrain before.nodeType (before.next (.global name) solved solution).nodeType)))
      general (constraints ++ constraints'
        ++ [(before.nodeType, (before.next (.global name) solved solution).nodeType)]) row := by
  have hknown := Inference.signature?_next hsignatures hgeneral
  have hstart : TypeEnv.Determines before.within.env
      (before.next (.global name) solved solution).env constraints _ _ :=
    hdefinition.congr rfl rfl rfl
  have hparts := hstart.both h.determines
  have hbody := h.determines.below
  rw [hknown] at hparts
  constructor
  · refine along_cons.2 ⟨fun type => ?_, hknown ▸ h.solved⟩
    rw [hgeneral]
    exact hdefinition.isInstance_iff hscoped.within hsolution
  · obtain ⟨reports, hinside, hmap⟩ := h.reports
    obtain ⟨report, hnext, hname, hsignature⟩ : ∃ report,
        (before.next (.global name) solved solution).reports = solved.reports ++ [report]
          ∧ report.name = name ∧ report.signature = general name :=
      ⟨_, rfl, rfl, hgeneral.symm⟩
    refine ⟨report :: reports, ?_, ?_⟩
    · rw [hnext, hreports, List.append_assoc] at hinside
      exact hinside
    · rw [List.map_cons, List.map_cons, hmap, hname, hsignature]
  · refine hparts.node hscoped hparts.nodeType_below hbody ?_ ?_ rfl
    · rintro assignment varTypes ⟨⟨hvar, hfirst⟩, hrest⟩ heq
      rw [heq]
      exact jointlyTyped_cons.2 ⟨hvar ▸ hfirst, hrest⟩
    · intro varTypes given hjudged
      obtain ⟨hfirst, hrest⟩ := jointlyTyped_cons.1 hjudged
      refine ⟨.arrow (varTypes (.global name)) given, ⟨⟨rfl, hfirst⟩, hrest⟩, ?_⟩
      intro assignment hnode hfound
      exact hnode.trans (Ty.arrow.inj hfound).2.symm
  · obtain ⟨front, rows, hrows, hlength⟩ := h.subterms
    refine ⟨front, rows ++ [before.row (Term.defining terms main (name :: names))], ?_, ?_⟩
    · rw [← List.cons_append, ← List.append_assoc, ← hrows]
      exact before.subterms_close _ _
    · simp [hlength]
  · intro assignment hsolves
    obtain ⟨hparts, hnode⟩ := solves_append.1 hsolves
    exact (h.row_type (solves_append.1 hparts).2).trans (solves_cons.1 hnode).1.symm

/-- The row of the term behind the definitions comes before one row for each of them. -/
theorem row_eq (h : SolvedDefinitions terms main names before inside general constraints row) :
    inside.env.subterms[inside.env.subterms.size - 1 - names.length]? = some row := by
  obtain ⟨front, rows, hrows, hlength⟩ := h.subterms
  have hindex : inside.env.subterms.size - 1 - names.length = front.length := by
    rw [← Array.length_toList, hrows, List.length_append, List.length_cons, hlength]
    omega
  rw [hindex, ← Array.getElem?_toList, hrows, List.getElem?_append_right (Nat.le_refl _),
    Nat.sub_self]
  rfl

end SolvedDefinitions

/-- The walk over definitions finds principal types for all of them, or there are none. -/
theorem Term.infer_defining {terms : String → Term} {main : Term} {names : List String}
    (hmain : ∃ leaves, main.IsOver leaves)
    (hterms : ∀ name ∈ names, ∃ leaves, (terms name).IsOver leaves)
    (hnodup : names.Nodup) {before : Inference} (hscoped : before.env.IsScoped) :
    (∃ after general constraints row,
        (defining terms main names).infer before = (.ok before.nodeType, after)
          ∧ SolvedDefinitions terms main names before after general constraints row)
      ∨ ∃ error after, (defining terms main names).infer before = (.error error, after)
          ∧ ∀ general, ¬ Along (IsPrincipal terms) before.env.signature? general names := by
  induction names generalizing before with
  | nil =>
    obtain ⟨leaves, hover⟩ := hmain
    obtain ⟨after, hinferred⟩ := infer_exact hover hscoped
    obtain ⟨constraints, hdetermines⟩ := hinferred.determines
    obtain ⟨front, hfront⟩ := List.getLast?_eq_some_iff.1 hinferred.last
    have hjudgement : JointlyTyped terms main before.env.signature? (fun _ => default) []
        = main.HasType before.env.signature? := by
      funext varTypes type
      exact propext jointlyTyped_nil
    refine .inl ⟨after, fun _ => default, constraints, before.row main, hinferred.infer_eq,
      ?_, ?_, ?_, ⟨front, [], hfront, rfl⟩, fun _ => rfl⟩
    · intro first name rest heq
      simp at heq
    · exact ⟨[], by rw [hinferred.reports, List.append_nil], rfl⟩
    · exact hjudgement ▸ hdetermines
  | cons name names ih =>
    obtain ⟨hname, hnodup⟩ := List.nodup_cons.1 hnodup
    obtain ⟨⟨leaves, hover⟩, hterms⟩ := List.forall_mem_cons.1 hterms
    obtain ⟨solved, constraints, hbound, hreports, hsignatures, hdefinition⟩ :=
      definition_determines hover hscoped (.global name)
    have hinfer := infer_letIn hbound (defining terms main names)
    rw [Inference.solveFrom_of_append before hdefinition.constraints_eq] at hinfer
    cases hsolution : unify constraints with
    | error error =>
      rw [hsolution] at hinfer
      refine .inr ⟨error, _, hinfer, fun general halong => ?_⟩
      obtain ⟨hfirst, -⟩ := along_cons.1 halong
      obtain ⟨varTypes, hjudged⟩ := (hfirst (general name)).1 (.refl _)
      exact hdefinition.not_judged hscoped.within hsolution varTypes _ hjudged
    | ok solution =>
      rw [hsolution] at hinfer
      have hstart : TypeEnv.Determines before.within.env
          (before.next (.global name) solved solution).env constraints _ _ :=
        hdefinition.congr rfl rfl rfl
      rcases ih hterms hnodup hstart.isScoped with
        ⟨inside, general, constraints', row, hrest, hsolved⟩ | ⟨error, inside, hrest, hnone⟩
      · simp only [hrest] at hinfer
        have hothers : ∀ other ∈ names, general other = Function.update general name
            (solution.apply (before.withName (.global name)).nodeType) other := fun other hmem =>
          (Function.update_of_ne (ne_of_mem_of_not_mem hmem hname) ..).symm
        exact .inl ⟨_, _, _, row, hinfer, (hsolved.congr hothers).cons hscoped hreports hsignatures
          hdefinition hsolution (Function.update_self ..)⟩
      · simp only [hrest] at hinfer
        refine .inr ⟨error, inside, hinfer, fun general halong => ?_⟩
        obtain ⟨hfirst, halong⟩ := along_cons.1 halong
        -- Another principal type of the first definition would do as well.
        have hprincipal : IsPrincipal terms before.env.signature? name
            (solution.apply (before.withName (.global name)).nodeType) :=
          fun type => hdefinition.isInstance_iff hscoped.within hsolution
        have hinstances := hfirst.sameInstances hprincipal
        refine hnone general (halong.isPrincipal_congr
          (fun other hmem => ⟨hterms other hmem, .refl _⟩) fun other => ?_)
        have hknown : (before.next (.global name) solved solution).env.signature?
            = extend before.env.signature? (fun _ =>
                solution.apply (before.withName (.global name)).nodeType) [name] :=
          Inference.signature?_next hsignatures rfl
        rw [hknown]
        refine (SameKnown.refl _ other).extend fun first hmem => ?_
        exact List.mem_singleton.1 hmem ▸ hinstances

end WhileLang

import WhileLang.Proofs.Term.Resolution
import WhileLang.Proofs.Typing.InferredTypes

/-!
# The order of functions

Functions are solved after those they call, so the order in which a program lists them matters only
for functions that call each other in a cycle.  Of these, the one that is solved first does not know
the type of the other yet.

Main definitions:

- Structure {lit}`Program.Reorders`: the same functions in another order, with cycles solved alike.
- Relation {lit}`Program.SignaturesAlike`: results of inference that agree up to renamings.

Main results:

- Theorem {lit}`Program.inferTypes_cyclicOrder`: the order of functions in a cycle can matter.
- Theorem {lit}`Program.inferTypes_reordered`: no other order of functions matters.
-/

namespace WhileLang

open Relation (ReflTransGen)

namespace Program

/-- Functions are listed in another order, and those in a cycle are solved in the same order. -/
structure Reorders (program other : Program) : Prop where
  distinct : (program.functions.map (·.name)).Nodup
  perm : program.functions.Perm other.functions
  cycles {first second : String} : first ≠ second → ReflTransGen program.Uses first second →
    ReflTransGen program.Uses second first →
      ([first, second].Sublist program.bindingOrder ↔ [first, second].Sublist other.bindingOrder)

variable {program other : Program}

/-! ## Functions in another order -/

/-- Where names are distinct, every definition is effective. -/
theorem function?_eq_some_iff (h : (program.functions.map (·.name)).Nodup) {name : String}
    {function : FunctionDef} :
    program.function? name = some function ↔
      function ∈ program.functions ∧ function.name = name := by
  refine ⟨mem_functions_of_function?, ?_⟩
  rintro ⟨hmem, rfl⟩
  obtain ⟨effective, heffective⟩ := Option.isSome_iff_exists.1
    (defines_iff.2 (List.mem_map.2 ⟨function, hmem, rfl⟩))
  obtain ⟨hother, hname⟩ := mem_functions_of_function? heffective
  rw [heffective, List.inj_on_of_nodup_map h hother hmem hname]

namespace Reorders

theorem function?_eq (h : program.Reorders other) : other.function? = program.function? := by
  funext name
  have hdistinct : (other.functions.map (·.name)).Nodup := (h.perm.map _).nodup_iff.1 h.distinct
  refine Option.ext fun function => ?_
  rw [function?_eq_some_iff hdistinct, function?_eq_some_iff h.distinct, h.perm.mem_iff]

theorem defines_eq (h : program.Reorders other) (name : String) :
    program.defines name = other.defines name := by
  unfold defines
  rw [h.function?_eq]

theorem calls_eq (h : program.Reorders other) : other.Calls = program.Calls := by
  funext caller callee
  unfold Calls
  rw [h.function?_eq]

theorem uses_eq (h : program.Reorders other) : other.Uses = program.Uses := by
  funext caller callee
  unfold Uses
  rw [h.calls_eq]

theorem symm (h : program.Reorders other) : other.Reorders program where
  distinct := (h.perm.map _).nodup_iff.1 h.distinct
  perm := h.perm.symm
  cycles hne hforth hback := by
    rw [h.uses_eq] at hforth hback
    exact (h.cycles hne hforth hback).symm

theorem termOf_eq (h : program.Reorders other) : other.termOf = program.termOf := by
  funext name
  unfold termOf effective
  simp only [h.function?_eq, FunctionDef.toTerm_congr h.defines_eq]

theorem isResolved (h : program.Reorders other) (hresolved : program.IsResolved) :
    other.IsResolved where
  main := h.defines_eq entryPoint ▸ hresolved.main
  calls hcalls := by
    rw [h.calls_eq] at hcalls
    exact h.defines_eq _ ▸ hresolved.calls hcalls

theorem mem_bindingOrder_iff (h : program.Reorders other) (hresolved : program.IsResolved)
    (name : String) : name ∈ program.bindingOrder ↔ name ∈ other.bindingOrder := by
  rw [hresolved.mem_bindingOrder_iff, (h.isResolved hresolved).mem_bindingOrder_iff,
    h.defines_eq]

end Reorders

/-! ## What is known when a function is solved -/

/-- In a list without repetitions, what comes before an element does so as a sublist. -/
theorem mem_before_iff {before after : List String} {first name : String}
    (hnodup : (before ++ name :: after).Nodup) (hne : first ≠ name) :
    first ∈ before ↔ [first, name].Sublist (before ++ name :: after) := by
  constructor
  · intro hmem
    exact (List.singleton_sublist.2 hmem).append (List.singleton_sublist.2 List.mem_cons_self)
  · intro hsub
    obtain ⟨left, right, heq, hleft, hright⟩ := List.sublist_append_iff.1 hsub
    cases left with
    | cons head left =>
      obtain ⟨rfl, -⟩ := List.cons.inj heq
      exact hleft.subset List.mem_cons_self
    | nil =>
      -- Then the name would come after itself.
      have hafter : name ∈ after := by
        rw [List.nil_append] at heq
        subst heq
        cases hright with
        | cons _ hright => exact hright.subset (by simp)
        | cons_cons => exact (hne rfl).elim
      exact ((List.nodup_cons.1 (List.nodup_append.1 hnodup).2.1).1 hafter).elim

/-- When a function is solved, the same functions of those that it calls are solved already. -/
theorem Reorders.mem_before (h : program.Reorders other) {name callee : String}
    {before after before' after' : List String}
    (heq : program.bindingOrder = before ++ name :: after)
    (heq' : other.bindingOrder = before' ++ name :: after') (hcalls : program.Calls name callee) :
    callee ∈ before ↔ callee ∈ before' := by
  have hsound := program.bindingOrder_sound
  have hsound' := other.bindingOrder_sound
  have hnodup : (before ++ name :: after).Nodup := heq ▸ hsound.nodup
  have hnodup' : (before' ++ name :: after').Nodup := heq' ▸ hsound'.nodup
  by_cases hmain : callee = entryPoint
  · refine iff_of_false (fun hmem => hsound.main ?_) fun hmem => hsound'.main ?_
    · rw [heq, ← hmain]
      exact List.mem_append_left _ hmem
    · rw [heq', ← hmain]
      exact List.mem_append_left _ hmem
  by_cases hself : callee = name
  · subst hself
    exact iff_of_false (fun hmem => (List.nodup_append.1 hnodup).2.2 _ hmem _ (by simp) rfl)
      fun hmem => (List.nodup_append.1 hnodup').2.2 _ hmem _ (by simp) rfl
  have huses : program.Uses name callee := ⟨hcalls, hmain⟩
  by_cases hback : ReflTransGen program.Uses callee name
  · rw [mem_before_iff hnodup hself, mem_before_iff hnodup' hself, ← heq, ← heq']
    exact h.cycles hself hback (.single huses)
  · refine iff_of_true ((hsound.ordered _ _ _ heq callee huses).resolve_right hback)
      ((hsound'.ordered _ _ _ heq' callee ?_).resolve_right ?_)
    · exact h.uses_eq ▸ huses
    · exact h.uses_eq ▸ hback

/-- What holds of functions over the types of those they call holds in the other order. -/
theorem Reorders.along (h : program.Reorders other) (hresolved : program.IsResolved)
    {Holds : (String → Option Ty) → String → Ty → Prop} {general : String → Ty}
    (hcongr : ∀ {known known' : String → Option Ty} {name : String}, name ∈ program.bindingOrder →
      (∀ callee, program.Calls name callee → SameKnown known known' callee) →
        Holds known name (general name) → Holds known' name (general name))
    (halong : Along Holds (fun _ => none) general program.bindingOrder) :
    Along Holds (fun _ => none) general other.bindingOrder := by
  intro before' name after' heq'
  have hmem : name ∈ program.bindingOrder := by
    rw [h.mem_bindingOrder_iff hresolved, heq']
    simp
  obtain ⟨before, after, heq⟩ := List.append_of_mem hmem
  refine hcongr hmem (fun callee hcalls => ?_) (halong before name after heq)
  have hbefore : extend (fun _ => none) general before callee
      = extend (fun _ => none) general before' callee := by
    simp only [extend, h.mem_before heq heq' hcalls]
  unfold SameKnown
  rw [hbefore]
  exact SameKnown.refl _ _

/-! ## Typings in another order -/

theorem HasTerm.isOver_calls {name : String} (h : program.HasTerm name) :
    ∃ leaves, (program.termOf name).IsOver leaves
      ∧ ∀ callee ∈ leaves, program.Calls name callee := by
  obtain ⟨function, hfunction, hover⟩ := h.isOver
  exact ⟨_, hover, fun callee hmem => ⟨function, hfunction, hmem⟩⟩

namespace Reorders

variable {general : String → Ty}

theorem isSolvedBy (h : program.Reorders other) (hterm : ∃ term, program.toTerm = .ok term)
    (hsolved : program.IsSolvedBy general) : other.IsSolvedBy general := by
  have hresolved := exists_toTerm_iff.1 hterm
  obtain ⟨term, hterm⟩ := hterm
  obtain ⟨-, -, hterms⟩ := toTerm_eq_defining hterm
  unfold IsSolvedBy
  rw [h.termOf_eq]
  refine h.along hresolved (fun {known known' name} hmem hknown hprincipal => ?_) hsolved
  obtain ⟨leaves, hover, hcalls⟩ := (hterms name (List.mem_cons_of_mem _ hmem)).isOver_calls
  exact hprincipal.congr hover (.refl _) fun callee hmem => hknown callee (hcalls callee hmem)

theorem hasJointType (h : program.Reorders other) (hterm : ∃ term, program.toTerm = .ok term)
    {type : Ty} (hjoint : program.HasJointType general type) : other.HasJointType general type := by
  have hresolved := exists_toTerm_iff.1 hterm
  obtain ⟨term, hterm⟩ := hterm
  obtain ⟨-, -, hterms⟩ := toTerm_eq_defining hterm
  obtain ⟨varTypes, hdefinitions, hmain⟩ := hjoint
  unfold HasJointType
  rw [h.termOf_eq]
  refine ⟨varTypes, h.along hresolved (fun {known known' name} hmem hknown htype => ?_)
    hdefinitions, ?_⟩
  · obtain ⟨leaves, hover, hcalls⟩ := (hterms name (List.mem_cons_of_mem _ hmem)).isOver_calls
    exact htype.congr hover fun callee hmem => hknown callee (hcalls callee hmem)
  · have hknown : extend (fun _ => none) general program.bindingOrder
        = extend (fun _ => none) general other.bindingOrder := by
      funext name
      simp only [extend, h.mem_bindingOrder_iff hresolved name]
    exact hknown ▸ hmain

theorem sameTypings (h : program.Reorders other) : program.SameTypings other := by
  have htranslated : (∃ term, program.toTerm = .ok term) ↔ ∃ term, other.toTerm = .ok term := by
    rw [exists_toTerm_iff, exists_toTerm_iff]
    exact ⟨h.isResolved, h.symm.isResolved⟩
  refine ⟨htranslated, fun hterm general => ?_, fun hterm general type => ?_⟩
  · exact ⟨h.isSolvedBy hterm, h.symm.isSolvedBy (htranslated.1 hterm)⟩
  · exact ⟨h.hasJointType hterm, h.symm.hasJointType (htranslated.1 hterm)⟩

end Reorders

/-! ## Signatures -/

/-- Two results of inference are errors, or give signatures that are equal up to renamings. -/
inductive SignaturesAlike (program : Program) :
    Except SemanticError ProgramTypes → Except SemanticError ProgramTypes → Prop where
  | accepted {types others : ProgramTypes}
      (h : ∀ function ∈ program.functions, ∃ report report',
        types.function? function.name = some report ∧ others.function? function.name = some report'
          ∧ report.signature.IsVariant report'.signature) :
      SignaturesAlike program (.ok types) (.ok others)
  | rejected (error error' : SemanticError) : SignaturesAlike program (.error error) (.error error')

/-- The report of a function has its principal type. -/
theorem Infers.function?_eq {types : ProgramTypes} {general : String → Ty}
    (h : program.Infers types general) {name : String} (hmem : name ∈ program.bindingOrder) :
    ∃ report, types.function? name = some report ∧ report.signature = general name := by
  have hmain : name ≠ entryPoint := ne_of_mem_of_not_mem hmem program.bindingOrder_sound.main
  have hnames : types.functions.map (·.name) = program.bindingOrder := by
    have hfirst := congrArg (List.map Prod.fst) h.functions
    simpa [List.map_map, Function.comp_def] using hfirst
  obtain ⟨report, hfind⟩ : ∃ report, types.functions.find? (·.name = name) = some report := by
    refine Option.isSome_iff_exists.1 (List.find?_isSome.2 ?_)
    rw [← hnames] at hmem
    obtain ⟨report, hreport, hname⟩ := List.mem_map.1 hmem
    exact ⟨report, hreport, by simpa using hname⟩
  refine ⟨report, by rw [ProgramTypes.function?, if_neg hmain, hfind], ?_⟩
  have hname : report.name = name := by simpa using List.find?_some hfind
  have hpair : (report.name, report.signature) ∈
      program.bindingOrder.map fun name => (name, general name) :=
    h.functions ▸ List.mem_map.2 ⟨report, List.mem_of_find?_eq_some hfind, rfl⟩
  obtain ⟨other, -, heq⟩ := List.mem_map.1 hpair
  obtain ⟨hother, hsignature⟩ := Prod.mk.inj heq
  rw [← hsignature, hother, hname]

/--
Inference does not depend on the order of functions, except for the functions in a cycle of calls,
which are solved in the order they are met.  Where these are solved in the same order, both programs
are rejected, or the signatures of all functions are the same up to a renaming of variables.
-/
theorem inferTypes_reordered (hdistinct : (program.functions.map (·.name)).Nodup)
    (hperm : program.functions.Perm other.functions)
    (hcycles : ∀ first second, first ≠ second → ReflTransGen program.Uses first second →
      ReflTransGen program.Uses second first →
        ([first, second].Sublist program.bindingOrder
          ↔ [first, second].Sublist other.bindingOrder)) :
    program.SignaturesAlike program.inferTypes other.inferTypes := by
  have hreorders : program.Reorders other := ⟨hdistinct, hperm, hcycles _ _⟩
  rcases hreorders.sameTypings.inferTypes with
    ⟨types, others, general, general', htypes, hothers, hinfers, hinfers', hgeneral, hmain⟩
      | ⟨error, error', herror, herror'⟩
  · rw [htypes, hothers]
    refine .accepted fun function hmem => ?_
    by_cases hname : function.name = entryPoint
    · refine ⟨types.main, others.main, ?_, ?_, hmain⟩
      · rw [ProgramTypes.function?, if_pos hname]
      · rw [ProgramTypes.function?, if_pos hname]
    · have hfunction := (function?_eq_some_iff hdistinct).2 ⟨hmem, rfl⟩
      have hbound := program.bindingOrder_sound.complete hfunction hname
      rw [← hreorders.function?_eq] at hfunction
      have hbound' := other.bindingOrder_sound.complete hfunction hname
      obtain ⟨report, hreport, hsignature⟩ := hinfers.function?_eq hbound
      obtain ⟨report', hreport', hsignature'⟩ := hinfers'.function?_eq hbound'
      exact ⟨report, report', hreport, hreport', hsignature ▸ hsignature' ▸ hgeneral _ hbound⟩
  · rw [herror, herror']
    exact .rejected error error'

/-- A function of integers, which calls a function that calls it back. -/
def successor : FunctionDef where
  name := "f"
  params := ["x"]
  body := some (.assign "y" (.math .add (.var "x") (.int 1)))
  result := .call "g" [.var "x"]

/-- A function that passes its argument on, and is solved for any type if it comes first. -/
def forward : FunctionDef where
  name := "g"
  params := ["x"]
  body := none
  result := .call "f" [.var "x"]

/-- An entry point that passes on a boolean. -/
def forwarding : FunctionDef where
  name := "main"
  params := []
  body := none
  result := .call "g" [.bool true]

theorem inferTypes_reordered_forward :
    (Program.mk [successor, forward, forwarding]).inferTypes.isOk = true
      ∧ (Program.mk [successor, forward, forwarding]).SignaturesAlike
          (Program.mk [successor, forward, forwarding]).inferTypes
          (Program.mk [forwarding, successor, forward]).inferTypes := by
  have horder : (Program.mk [successor, forward, forwarding]).bindingOrder
      = (Program.mk [forwarding, successor, forward]).bindingOrder := by decide +kernel
  refine ⟨by decide +kernel, inferTypes_reordered (by decide +kernel) (by decide +kernel) ?_⟩
  intro first second _ _ _
  rw [horder]

/-- In a cycle, the order of functions decides whether the types of a program are inferred. -/
theorem inferTypes_cyclicOrder :
    ([successor, forward, forwarding].map (·.name)).Nodup
      ∧ [successor, forward, forwarding].Perm [forward, successor, forwarding]
      ∧ ¬ (Program.mk [successor, forward, forwarding]).SignaturesAlike
          (Program.mk [successor, forward, forwarding]).inferTypes
          (Program.mk [forward, successor, forwarding]).inferTypes := by
  have haccepts : (Program.mk [successor, forward, forwarding]).inferTypes.isOk = true := by
    decide +kernel
  have hrejects : (Program.mk [forward, successor, forwarding]).inferTypes.isOk = false := by
    decide +kernel
  refine ⟨by decide, by decide, fun halike => ?_⟩
  cases hfirst : (Program.mk [successor, forward, forwarding]).inferTypes with
  | error error =>
    rw [hfirst] at haccepts
    cases haccepts
  | ok types =>
    cases hsecond : (Program.mk [forward, successor, forwarding]).inferTypes with
    | ok others =>
      rw [hsecond] at hrejects
      cases hrejects
    | error error =>
      rw [hfirst, hsecond] at halike
      cases halike

end Program

end WhileLang

import WhileLang.Proofs.Term.BindingOrder
import WhileLang.Proofs.Typing.Evaluation
import WhileLang.Proofs.Typing.ProgramWalks
import WhileLang.Running.Execution

/-!
# Type soundness

A program whose types can be inferred runs without mismatches of operands, and leaves values of the
reported types.  Calls must not go in circles, except that a function may call itself: the type of a
function is solved before those that call it are looked at.

Main definitions:

- Structure {lit}`Program.IsStratified`: calls do not go in circles, and not to the entry point.
- Relation {lit}`Value.Obeys`: a value is what a reported type promises.

Main results:

- Theorem {lit}`Program.inferTypes_typed`: inferred types are those of the typing rules.
- Theorem {lit}`Program.run?_sound`: type soundness.
-/

namespace WhileLang

open Relation (ReflTransGen TransGen)

namespace Program

variable {program : Program}

/-! ## Calls without circles -/

/-- No function calls the entry point, and circles of calls are those of single functions. -/
structure IsStratified (program : Program) : Prop where
  main (caller : String) : ¬ program.Calls caller entryPoint
  acyclic (name : String) :
    ¬ TransGen (fun caller callee => program.Calls caller callee ∧ caller ≠ callee) name name

/-- There are no circles where functions call only themselves and others of a smaller rank. -/
theorem isStratified_of_rank (rank : String → Nat)
    (h : ∀ function ∈ program.functions, ∀ callee ∈ function.callees,
      callee ≠ entryPoint ∧ (callee = function.name ∨ rank callee < rank function.name)) :
    program.IsStratified where
  main := by
    rintro caller ⟨function, hfunction, hmem⟩
    exact (h function (mem_functions_of_function? hfunction).1 entryPoint hmem).1 rfl
  acyclic := by
    intro name hcircle
    have hrank : TransGen (fun x y : Nat => y < x) (rank name) (rank name) := by
      refine hcircle.lift rank ?_
      rintro caller callee ⟨⟨function, hfunction, hmem⟩, hne⟩
      obtain ⟨hin, rfl⟩ := mem_functions_of_function? hfunction
      exact (h function hin callee hmem).2.resolve_left hne.symm
    have hlt (x y : Nat) (hxy : TransGen (fun x y : Nat => y < x) x y) : y < x := by
      induction hxy with
      | single hstep => exact hstep
      | tail _ hstep ih => exact hstep.trans ih
    exact (hlt _ _ hrank).false

/-- Without circles, functions are defined after all others that they call. -/
theorem IsStratified.readyFor (h : program.IsStratified) (known : String → Prop) :
    program.ReadyFor known program.bindingOrder := by
  intro before name after heq callee hcalls hne
  have huses : program.Uses name callee := ⟨hcalls, fun hmain => h.main name (hmain ▸ hcalls)⟩
  rcases program.bindingOrder_sound.ordered before name after heq callee huses with hmem | hback
  · exact Or.inl hmem
  · -- A way back from the callee closes a circle, also without the steps on the spot.
    have hother : ReflTransGen (fun caller callee => program.Calls caller callee ∧ caller ≠ callee)
        callee name := by
      clear heq hcalls hne huses
      induction hback with
      | refl => exact .refl
      | @tail middle last _ hstep ih =>
        by_cases hsame : middle = last
        · exact hsame ▸ ih
        · exact ih.tail ⟨hstep.1, hsame⟩
    exact absurd (TransGen.head' ⟨hcalls, hne.symm⟩ hother) (h.acyclic name)

/-! ## Inferred types -/

/-- A function that is listed has every instance of its type. -/
theorem Walk.hasType {types : ProgramTypes} {start stop after : Inference}
    {definitions : String → SpotSolution} {solution : Subst}
    (h : program.Walk types start stop after definitions solution) (hnamed : IsNamed program.names)
    (hstratified : program.IsStratified) {name : String} (hmem : name ∈ program.bindingOrder)
    {function : FunctionDef} (hfunction : program.function? name = some function) {type : Ty}
    (hinstance : type.IsInstance (definitions name).signature) :
    function.HasType (known definitions program.bindingOrder) type := by
  obtain ⟨front, behind, heq, hisOf⟩ := h.isOf hmem
  obtain ⟨other, hother, hterm⟩ := h.terms name (List.mem_cons_of_mem _ hmem)
  obtain rfl : other = function := Option.some.inj (hother.symm.trans hfunction)
  obtain ⟨-, rfl⟩ := mem_functions_of_function? hfunction
  have hnodup := program.bindingOrder_sound.nodup
  rw [heq] at hnodup
  have hfresh : other.name ∉ front := fun hfront =>
    (List.nodup_append.1 hnodup).2.2 _ hfront _ List.mem_cons_self rfl
  refine hisOf.hasType (isNamed_callees hnamed hfunction) hterm ?_ ?_ (fun callee hcallee hne => ?_)
    hinstance
  · simp [known, extend, hfresh]
  · simp [known, extend, hmem]
  · -- Without circles, a function is solved after those that it calls.
    have hfront : callee ∈ front := (hstratified.readyFor (fun _ => False) front other.name behind
      heq callee ⟨other, hfunction, hcallee⟩ hne).resolve_right id
    have hlisted : callee ∈ program.bindingOrder := heq ▸ List.mem_append_left _ hfront
    exact ⟨(definitions callee).signature, by simp [known, extend, hfront],
      by simp [known, extend, hlisted]⟩

/-- Inferred types are those of the typing rules. -/
theorem inferTypes_typed (hnamed : IsNamed program.names) (hstratified : program.IsStratified)
    {types : ProgramTypes} (h : program.inferTypes = .ok types) :
    ∃ signature? main locals result, program.IsTyped signature?
      ∧ program.function? entryPoint = some main
      ∧ main.Returns signature? locals result
      ∧ types.main.signature = .arrows (main.params.map locals) result
      ∧ ∀ name type, types.main.typeOf? (name ++ "::" ++ entryPoint) = some type →
          type = locals name := by
  obtain ⟨start, stop, after, definitions, solution, hwalk⟩ := inferTypes_walk hnamed h
  obtain ⟨main, hmain, hmainTerm⟩ := hwalk.terms entryPoint List.mem_cons_self
  obtain ⟨-, hname⟩ := mem_functions_of_function? hmain
  obtain ⟨constraints, hwalked⟩ := hwalk.main_walked hnamed
  obtain ⟨varTypes, hrows, htyped⟩ := hwalk.main_typed hnamed
  have hcalls : CallsInstances program (Walk.known definitions program.bindingOrder) varTypes
      (Walk.known definitions program.bindingOrder) main.callees := by
    intro callee hmem hdefines type hcallee
    obtain ⟨function, hfunction⟩ := defines_iff_effective.1 hdefines
    have hne : callee ≠ entryPoint := fun heq => hstratified.main entryPoint
      ⟨main, hmain, heq ▸ hmem⟩
    have hlisted := program.bindingOrder_sound.complete (effective_eq_ok.1 hfunction) hne
    rw [TermVar.hasType_global_iff (isNamed_callees hnamed hmain callee hmem)] at hcallee
    simp only [Walk.known, extend, if_pos hlisted] at hcallee ⊢
    exact ⟨_, rfl, hcallee⟩
  obtain ⟨result, htype, hreturns⟩ := FunctionDef.returns_of_toTerm hcalls hmainTerm htyped
  refine ⟨Walk.known definitions program.bindingOrder, main, _, result, ?_, hmain, hreturns, htype,
    ?_⟩
  · intro name function general hfunction hgeneral type hinstance
    obtain ⟨hmem, rfl⟩ : name ∈ program.bindingOrder ∧ (definitions name).signature = general := by
      simpa [Walk.known, extend] using hgeneral
    exact hwalk.hasType hnamed hstratified hmem (effective_eq_ok.1 hfunction) hinstance
  · intro name type hreported
    obtain ⟨row, hmem, htext, rfl⟩ := mem_of_typeOf? hwalk.rows hreported
    have hrowType := hrows row hmem
    rw [Term.eq_var_of_text (by decide +kernel) (hwalked.belongs row hmem) htext] at hrowType
    cases hrowType with
    | var hleaf => exact hname ▸ hleaf.eq_variable

end Program

/-! ## Soundness -/

/--
A value is what a reported type promises: an integer, or a boolean for which also zero may stand,
since that is what a variable reads as before it is assigned.
-/
structure Value.Obeys (value : Value) (type : Ty) : Prop where
  int : type = .int → ∃ number, value = .int number
  bool : type = .bool → (∃ truth, value = .bool truth) ∨ value = .int 0

theorem Value.Fits.obeys {value : Value} {type : Ty} (h : value.Fits type) : value.Obeys type where
  int htype := (htype ▸ h : value.Fits .int).eq_int
  bool htype := (htype ▸ h : value.Fits .bool).eq_bool

/-- What reported types promise of the end of a run. -/
structure Program.EndsAsTyped (program : Program) (types : ProgramTypes)
    (ending : Except SemanticError Execution) : Prop where
  noMismatch (operator left right : String) :
    ending ≠ .error (.operandMismatch operator left right)
  bindings {execution : Execution} : ending = .ok execution →
    ∀ name value type, (name, value) ∈ execution.bindings →
      types.main.typeOf? (name ++ "::" ++ entryPoint) = some type → value.Obeys type
  returned {execution : Execution} : ending = .ok execution →
    ∃ main result value, program.function? entryPoint = some main
      ∧ types.main.signature.resultAfter? main.params.length = some result
      ∧ execution.returned = some value ∧ value.Obeys result

/--
Type soundness.  Where types are inferred, no run ends with a mismatch of operands, and the variables
and the result of the entry point obey their reported types.
-/
theorem Program.run?_sound {program : Program} (hnamed : IsNamed program.names)
    (hstratified : program.IsStratified) {types : ProgramTypes}
    (hinfer : program.inferTypes = .ok types) {maxDepth fuel : Nat}
    {ending : Except SemanticError Execution} (hend : program.run? maxDepth fuel = some ending) :
    program.EndsAsTyped types ending := by
  obtain ⟨signature?, main, locals, result, htyped, hmain, hreturns, hsignature, hreported⟩ :=
    inferTypes_typed hnamed hstratified hinfer
  have hrun : (runFunction fuel main (.new program maxDepth)).EndsIn fun value after =>
      value.Fits result ∧ after.current.Fits locals :=
    (evaluation_respectsTypes htyped fuel).runFunction rfl (Frame.fits_empty locals) hreturns
  have hstart : (CallStack.new program maxDepth).function entryPoint = .ok main :=
    effective_eq_ok.2 hmain
  unfold run? at hend
  simp only [hstart] at hend
  cases houtcome : runFunction fuel main (.new program maxDepth) with
  | outOfFuel =>
    rw [houtcome] at hend
    cases hend
  | failed error stack =>
    rw [houtcome] at hend hrun
    cases hend
    refine ⟨fun operator left right heq => ?_, nofun, nofun⟩
    cases heq
    exact hrun operator left right rfl
  | done value stack =>
    rw [houtcome] at hend hrun
    cases hend
    obtain ⟨hvalue, hframe⟩ := hrun
    constructor
    · exact fun _ _ _ => nofun
    · rintro execution heq name value type hmem htype
      cases heq
      obtain rfl := hreported name type htype
      have hbottom : stack.leave.1 = stack.current := by
        unfold CallStack.leave
        split <;> rfl
      rw [hbottom] at hmem
      exact (hframe (name, value) hmem).obeys
    · rintro execution heq
      cases heq
      refine ⟨main, result, value, hmain, ?_, rfl, hvalue.obeys⟩
      have hlength : main.params.length = (main.params.map locals).length :=
        (List.length_map locals).symm
      rw [hsignature, hlength]
      exact Ty.resultAfter?_arrows _ _

/-- A program with a function that calls itself, and a variable that is a boolean. -/
def sumProgram : Program where
  functions := [
    { name := "sum"
      params := ["n"]
      body := some (.seq (.assign "s" (.int 0))
        (.ifThen (.compare .lt (.int 0) (.var "n"))
          (.assign "s" (.math .add (.var "n") (.call "sum" [.math .sub (.var "n") (.int 1)])))))
      result := .var "s" },
    { name := "main"
      params := []
      body := some (.assign "b" (.compare .lt (.int 1) (.call "sum" [.int 2])))
      result := .call "sum" [.int 3] }]

theorem Program.run?_sound_sumProgram :
    IsNamed sumProgram.names ∧ sumProgram.IsStratified ∧
      ∃ types ending, sumProgram.inferTypes = .ok types ∧ sumProgram.run? 10 100 = some ending
        ∧ sumProgram.EndsAsTyped types ending := by
  have hnamed : IsNamed sumProgram.names := by decide +kernel
  have hstratified : sumProgram.IsStratified :=
    isStratified_of_rank (fun name => if name = entryPoint then 1 else 0) (by decide +kernel)
  have hinfer : sumProgram.inferTypes.isOk = true := by decide +kernel
  have hrun : (sumProgram.run? 10 100).isSome = true := by decide +kernel
  obtain ⟨types, htypes⟩ := exists_of_isOk hinfer
  obtain ⟨ending, hend⟩ := Option.isSome_iff_exists.1 hrun
  exact ⟨hnamed, hstratified, types, ending, htypes, hend,
    Program.run?_sound hnamed hstratified htypes hend⟩

end WhileLang

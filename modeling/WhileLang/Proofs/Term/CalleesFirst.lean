import Mathlib.Data.List.Basic
import WhileLang.Proofs.Term.Resolution

/-!
# Callees first

The search for the order of definitions passes through a bounded number of nested calls.  This file
compares it with the search that has no bound, and shows what its order is for a program all of
whose calls have a definition.

Main definitions:

- Relation {lit}`Program.Searches`: the search without a bound, over any graph of calls.
- Function {lit}`Program.sourceOrder`: the functions in the order they are first defined.
- Predicate {lit}`Program.DefinesCalleesFirst`: the program itself defines callees before callers.

Main results:

- Theorem {lit}`Program.searches_foldl`: the search ends, and the bound is never reached.
- Theorem {lit}`Program.Searches.unique`: it ends in one way.
- Theorem {lit}`Program.DefinesCalleesFirst.searches`: nothing is left to be reordered where callees
  are defined first.
- Theorem {lit}`Program.bindingOrder_calleesFirst`: what the order of definitions is.
-/

namespace WhileLang

open Relation (ReflTransGen)

/-- A search that has listed all that it has met. -/
def CallSearch.listed (order : List String) : CallSearch where
  visited := order.reverse
  order := order

namespace Program

variable {program : Program} {search after : CallSearch} {name : String} {names : List String}

/-! ## The search without a bound -/

/-- The functions that the effective definition of a name calls. -/
def calleesOf (program : Program) (name : String) : List String :=
  (program.function? name).elim [] FunctionDef.callees

theorem mem_calleesOf {caller callee : String} :
    callee ∈ program.calleesOf caller ↔ program.Calls caller callee := by
  unfold calleesOf Calls
  cases program.function? caller <;> simp

/--
A search for some names ends.  A name that was met before is skipped, like the entry point; another
one is listed behind all that the search for its callees lists.
-/
inductive Searches (program : Program) : CallSearch → List String → CallSearch → Prop where
  | nil (search : CallSearch) : Searches program search [] search
  | skip {search after : CallSearch} {name : String} {names : List String}
      (hskip : name = entryPoint ∨ name ∈ search.visited)
      (hrest : Searches program search names after) :
      Searches program search (name :: names) after
  | enter {search inner after : CallSearch} {name : String} {names : List String}
      (hnew : ¬ (name = entryPoint ∨ name ∈ search.visited))
      (hinner : Searches program { search with visited := name :: search.visited }
        (program.calleesOf name) inner)
      (hrest : Searches program { inner with order := inner.order ++ [name] } names after) :
      Searches program search (name :: names) after

/-- A search forgets no name that it has met. -/
theorem Searches.grows (h : program.Searches search names after) {x : String}
    (hx : x ∈ search.visited) : x ∈ after.visited := by
  induction h with
  | nil => exact hx
  | skip _ _ ih => exact ih hx
  | enter _ _ _ ihinner ihrest => exact ihrest (ihinner (List.mem_cons_of_mem _ hx))

/-- There is one way in which a search ends. -/
theorem Searches.unique {other : CallSearch} (h : program.Searches search names after)
    (h' : program.Searches search names other) : after = other := by
  induction h generalizing other with
  | nil =>
    cases h'
    rfl
  | skip hskip _ ih =>
    cases h' with
    | skip _ hrest => exact ih hrest
    | enter hnew => exact absurd hskip hnew
  | enter hnew _ _ ihinner ihrest =>
    cases h' with
    | skip hskip => exact absurd hskip hnew
    | enter _ hinner hrest =>
      rw [← ihinner hinner] at hrest
      exact ihrest hrest

/-- Names that were met before, and the entry point, are all skipped. -/
theorem searches_skipped (h : ∀ name ∈ names, name = entryPoint ∨ name ∈ search.visited) :
    program.Searches search names search := by
  induction names with
  | nil => exact .nil search
  | cons name names ih =>
    rw [List.forall_mem_cons] at h
    exact .skip h.1 (ih h.2)

/-- The search for a name that is new goes through its callees. -/
theorem visit_succ (depth : Nat) (search : CallSearch) (name : String) :
    program.visit (depth + 1) search name =
      if name = entryPoint ∨ name ∈ search.visited then search
      else
        let left := (program.calleesOf name).foldl (program.visit depth)
          { search with visited := name :: search.visited }
        { left with order := left.order ++ [name] } := by
  unfold visit calleesOf
  cases program.function? name <;> rfl

/-- A search that may become as deep as there are functions left is not cut short. -/
theorem searches_foldl {depth : Nat} (names : List String)
    (hdepth : program.unvisited search < depth) :
    program.Searches search names (names.foldl (program.visit depth) search) := by
  induction depth generalizing search names with
  | zero => exact absurd hdepth (Nat.not_lt_zero _)
  | succ depth ih =>
    induction names generalizing search with
    | nil => exact .nil search
    | cons name names ihnames =>
      rw [List.foldl_cons, visit_succ]
      by_cases hskip : name = entryPoint ∨ name ∈ search.visited
      · rw [if_pos hskip]
        exact .skip hskip (ihnames hdepth)
      · rw [if_neg hskip]
        have hinner : program.Searches { search with visited := name :: search.visited }
            (program.calleesOf name) ((program.calleesOf name).foldl (program.visit depth)
              { search with visited := name :: search.visited }) := by
          cases hfunction : program.function? name with
          | none =>
            simp only [calleesOf, hfunction]
            exact .nil _
          | some function =>
            have hless := unvisited_lt hfunction fun hmem => hskip (Or.inr hmem)
            exact ih _ (by omega)
        refine .enter hskip hinner (ihnames ?_)
        exact (unvisited_le fun x hx => hinner.grows (List.mem_cons_of_mem _ hx)).trans_lt hdepth

/-- The order of definitions is what the search without a bound lists. -/
theorem exists_searches_bindingOrder (program : Program) :
    ∃ after, program.Searches {} (program.functions.map (·.name)) after
      ∧ after.order = program.bindingOrder :=
  ⟨_, searches_foldl _ program.unvisited_start_lt, rfl⟩

/-! ## The order of the source -/

/-- The functions but the entry point, in the order of their first definitions. -/
def firstDefinitions (names : List String) : List String :=
  (names.filter (· ≠ entryPoint)).eraseDups

/-- The functions of a program in the order it defines them first. -/
def sourceOrder (program : Program) : List String :=
  firstDefinitions (program.functions.map (·.name))

theorem mem_firstDefinitions :
    name ∈ firstDefinitions names ↔ name ∈ names ∧ name ≠ entryPoint := by
  simp [firstDefinitions]

/-- Another definition comes last if it is the first one of its name. -/
theorem firstDefinitions_append (names : List String) (name : String) :
    firstDefinitions (names ++ [name]) =
      if name = entryPoint ∨ name ∈ firstDefinitions names then firstDefinitions names
      else firstDefinitions names ++ [name] := by
  by_cases hmain : name = entryPoint
  · simp [firstDefinitions, hmain]
  · have hnew : [name].eraseDups = [name] := rfl
    by_cases hmem : name ∈ names
    · simp [firstDefinitions, hmain, hmem, List.eraseDups_append, List.removeAll]
    · simp [firstDefinitions, hmain, hmem, List.eraseDups_append, List.removeAll, hnew]

/-- Every function is first defined after the functions it calls, itself excepted. -/
def DefinesCalleesFirst (program : Program) : Prop :=
  ∀ caller ∈ program.functions.map (·.name), caller ≠ entryPoint →
    ∀ callee ∈ program.calleesOf caller, callee ≠ entryPoint → callee ≠ caller →
      (program.functions.map (·.name)).idxOf callee
        < (program.functions.map (·.name)).idxOf caller

instance (program : Program) : Decidable program.DefinesCalleesFirst :=
  inferInstanceAs (Decidable (∀ caller ∈ program.functions.map (·.name), caller ≠ entryPoint →
    ∀ callee ∈ program.calleesOf caller, callee ≠ entryPoint → callee ≠ caller →
      (program.functions.map (·.name)).idxOf callee
        < (program.functions.map (·.name)).idxOf caller))

/-- What is found earlier in a list than an item that is new there is found before it. -/
theorem mem_of_idxOf_lt {before after : List String} {x y : String} (hy : y ∉ before)
    (h : (before ++ y :: after).idxOf x < (before ++ y :: after).idxOf y) : x ∈ before := by
  by_contra hx
  rw [List.idxOf_append_of_notMem hx, List.idxOf_append_of_notMem hy, List.idxOf_cons_self] at h
  omega

theorem idxOf_lt_of_mem {before after : List String} {x y : String} (hy : y ∉ before)
    (hx : x ∈ before) :
    (before ++ y :: after).idxOf x < (before ++ y :: after).idxOf y := by
  rw [List.idxOf_append_of_mem hx, List.idxOf_append_of_notMem hy]
  exact (List.idxOf_lt_length_of_mem hx).trans_le (Nat.le_add_right _ _)

/-- Where callees are defined first, the search lists each function as soon as it comes to it. -/
theorem DefinesCalleesFirst.searches (h : program.DefinesCalleesFirst) (before rest : List String)
    (heq : program.functions.map (·.name) = before ++ rest) :
    program.Searches (CallSearch.listed (firstDefinitions before)) rest
      (CallSearch.listed program.sourceOrder) := by
  induction rest generalizing before with
  | nil =>
    rw [sourceOrder, heq, List.append_nil]
    exact .nil _
  | cons name rest ih =>
    have hnext := ih (before ++ [name]) (by simp [heq])
    rw [firstDefinitions_append] at hnext
    by_cases hskip : name = entryPoint ∨ name ∈ firstDefinitions before
    · rw [if_pos hskip] at hnext
      exact .skip (by simpa [CallSearch.listed] using hskip) hnext
    · rw [if_neg hskip] at hnext
      obtain ⟨hmain, hnew⟩ := not_or.1 hskip
      have hbefore : name ∉ before := fun hmem => hnew (mem_firstDefinitions.2 ⟨hmem, hmain⟩)
      have hinner : program.Searches
          { CallSearch.listed (firstDefinitions before) with
            visited := name :: (firstDefinitions before).reverse }
          (program.calleesOf name)
          { CallSearch.listed (firstDefinitions before) with
            visited := name :: (firstDefinitions before).reverse } := by
        refine searches_skipped fun callee hcallee => ?_
        by_cases hcalleeMain : callee = entryPoint
        · exact Or.inl hcalleeMain
        by_cases hself : callee = name
        · simp [hself]
        have hless := h name (by simp [heq]) hmain callee hcallee hcalleeMain hself
        rw [heq] at hless
        have hmem := mem_firstDefinitions.2 ⟨mem_of_idxOf_lt hbefore hless, hcalleeMain⟩
        simp [hmem]
      exact .enter (by simpa [CallSearch.listed] using hskip) hinner
        (by simpa [CallSearch.listed] using hnext)

/-- Where callees are defined first, the order of definitions is the order of the source. -/
theorem DefinesCalleesFirst.bindingOrder_eq (h : program.DefinesCalleesFirst) :
    program.bindingOrder = program.sourceOrder := by
  obtain ⟨after, hsearches, horder⟩ := program.exists_searches_bindingOrder
  have hlisted : after = CallSearch.listed program.sourceOrder :=
    hsearches.unique (h.searches [] _ rfl)
  rw [← horder, hlisted]
  rfl

/-! ## The order of definitions -/

/-- A function comes before those that use it, unless it leads back to them. -/
theorem idxOf_lt_of_uses {caller callee : String} (hmain : caller ≠ entryPoint)
    (huses : program.Uses caller callee) :
    program.bindingOrder.idxOf callee < program.bindingOrder.idxOf caller
      ∨ ReflTransGen program.Uses callee caller := by
  have hsound := program.bindingOrder_sound
  obtain ⟨⟨function, hfunction, -⟩, -⟩ := id huses
  obtain ⟨before, rest, heq⟩ := List.append_of_mem (hsound.complete hfunction hmain)
  have hnodup : caller ∉ before := by
    have := hsound.nodup
    rw [heq, List.nodup_append] at this
    exact fun hmem => this.2.2 caller hmem caller List.mem_cons_self rfl
  rcases hsound.ordered before caller rest heq callee huses with hmem | hreach
  · rw [heq]
    exact Or.inl (idxOf_lt_of_mem hnodup hmem)
  · exact Or.inr hreach

/--
The order of definitions of a program whose calls all have a definition.  The search for it ends, in
one way.  It lists every function but the entry point once, and nothing else.  A function comes
after the others that it calls, except for those that lead back to it through calls of functions
other than the entry point.  If the program defines callees first, the order is that of the source.
-/
theorem bindingOrder_calleesFirst (program : Program)
    (h : ∀ caller callee, program.Calls caller callee → program.defines callee = true) :
    (∃ after, (∀ other, program.Searches {} (program.functions.map (·.name)) other
        ↔ other = after) ∧ after.order = program.bindingOrder)
      ∧ program.bindingOrder.Nodup
      ∧ (∀ name, name ∈ program.bindingOrder
          ↔ program.defines name = true ∧ name ≠ entryPoint)
      ∧ (∀ caller callee, caller ≠ entryPoint → program.Uses caller callee → callee ≠ caller →
          program.bindingOrder.idxOf callee < program.bindingOrder.idxOf caller
            ∨ ReflTransGen program.Uses callee caller)
      ∧ (program.DefinesCalleesFirst → program.bindingOrder = program.sourceOrder) := by
  obtain ⟨after, hsearches, horder⟩ := program.exists_searches_bindingOrder
  refine ⟨⟨after, fun other => ⟨fun hother => hother.unique hsearches, ?_⟩, horder⟩,
    program.bindingOrder_sound.nodup, fun name => mem_bindingOrder_iff (h _ _),
    fun caller callee hmain huses _ => idxOf_lt_of_uses hmain huses,
    fun hfirst => hfirst.bindingOrder_eq⟩
  rintro rfl
  exact hsearches

/-- A program with a function that calls itself, and one that is defined twice. -/
def redefining : Program where
  functions := [
    { name := "f", params := [], body := none, result := .call "f" [] },
    { name := "g", params := [], body := none, result := .call "h" [] },
    { name := "h", params := [], body := none, result := .call "f" [] },
    { name := "main", params := [], body := none, result := .call "h" [] },
    { name := "g", params := [], body := none, result := .call "f" [.call "main" []] }]

theorem bindingOrder_calleesFirst_redefining :
    (∀ caller callee, redefining.Calls caller callee → redefining.defines callee = true)
      ∧ redefining.Uses "g" "f"
      ∧ (redefining.bindingOrder.idxOf "f" < redefining.bindingOrder.idxOf "g"
        ∨ ReflTransGen redefining.Uses "f" "g")
      ∧ redefining.DefinesCalleesFirst
      ∧ redefining.bindingOrder = redefining.sourceOrder := by
  have hresolved : redefining.IsResolved := isResolved_iff.2 (by decide +kernel)
  have hcalls (caller callee : String) (h : redefining.Calls caller callee) :
      redefining.defines callee = true := hresolved.calls h
  have huses : redefining.Uses "g" "f" := ⟨mem_calleesOf.1 (by decide +kernel), by decide⟩
  have hfirst : redefining.DefinesCalleesFirst := by decide +kernel
  obtain ⟨-, -, -, horder, hsource⟩ := bindingOrder_calleesFirst redefining hcalls
  exact ⟨hcalls, huses, horder "g" "f" (by decide) huses (by decide), hfirst, hsource hfirst⟩

end Program

end WhileLang

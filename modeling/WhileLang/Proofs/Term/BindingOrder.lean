import Mathlib.Data.Finset.Card
import Mathlib.Logic.Relation
import WhileLang.Proofs.Syntax.Names
import WhileLang.Term.OfProgram

/-!
# The order of definitions

The search through calls lists every function once, after all functions it calls except those that
call it back.

Main definitions:

- Relation {lit}`Program.Uses`: calls to other functions than the entry point.
- Predicate {lit}`Program.IsPostOrder`: functions come after those they use.
- Structure {lit}`CallSearch.Sound`: what holds between two steps of the search.
- Structure {lit}`Program.BindsInOrder`: what the order of definitions is good for.

Main results:

- Theorem {lit}`Program.bindingOrder_sound`: the order of definitions is such an order.
-/

namespace WhileLang

open Relation (ReflTransGen)

namespace Program

variable (program : Program)

/-- A function calls a function other than the entry point. -/
def Uses (caller callee : String) : Prop :=
  program.Calls caller callee ∧ callee ≠ entryPoint

/-- A function comes after those it uses, unless they lead back to it. -/
def IsPostOrder (order : List String) : Prop :=
  ∀ before name after, order = before ++ name :: after → ∀ callee, program.Uses name callee →
    callee ∈ before ∨ ReflTransGen program.Uses callee name

end Program

/--
A search through calls between two steps.  Of the names it has met, some are listed and the others
are the active ones, whose calls it is still going through.
-/
structure CallSearch.Sound (program : Program) (active : List String) (search : CallSearch) :
    Prop where
  visited {name : String} : name ∈ search.visited ↔ name ∈ search.order ∨ name ∈ active
  nodup : search.order.Nodup
  active {name : String} : name ∈ active → name ∉ search.order
  main : entryPoint ∉ search.visited
  ordered : program.IsPostOrder search.order

namespace Program

variable {program : Program} {search : CallSearch} {active : List String} {name : String}

theorem isPostOrder_nil (program : Program) : program.IsPostOrder [] := by
  intro before name after h
  simp at h

/-- A name can be listed once all that it uses is listed, or leads back to it. -/
theorem IsPostOrder.append {order : List String} (h : program.IsPostOrder order)
    (hname : ∀ callee, program.Uses name callee →
      callee ∈ order ∨ ReflTransGen program.Uses callee name) :
    program.IsPostOrder (order ++ [name]) := by
  intro before other after heq callee huses
  rcases List.append_eq_append_iff.1 heq with ⟨rest, rfl, hrest⟩ | ⟨rest, rfl, hrest⟩
  · cases rest with
    | nil =>
      simp only [List.nil_append, List.cons.injEq] at hrest
      obtain ⟨rfl, -⟩ := hrest
      simpa using hname callee huses
    | cons _ rest => simp at hrest
  · cases rest with
    | nil =>
      simp only [List.nil_append, List.cons.injEq] at hrest
      obtain ⟨rfl, -⟩ := hrest
      simpa using hname callee huses
    | cons first rest =>
      rw [List.cons_append, List.cons.injEq] at hrest
      obtain ⟨rfl, rfl⟩ := hrest
      exact h before other rest rfl callee huses

/-! ## How deep a search can become -/

/-- The number of functions that a search has not met. -/
def unvisited (program : Program) (search : CallSearch) : Nat :=
  ((program.functions.map (·.name)).toFinset \ search.visited.toFinset).card

theorem unvisited_le {after : CallSearch} (h : ∀ x ∈ search.visited, x ∈ after.visited) :
    program.unvisited after ≤ program.unvisited search := by
  refine Finset.card_le_card (Finset.sdiff_subset_sdiff (Finset.Subset.refl _) fun x hx => ?_)
  simp only [List.mem_toFinset] at hx ⊢
  exact h x hx

/-- The search for the order of definitions may become deeper than there are functions. -/
theorem unvisited_start_lt (program : Program) :
    program.unvisited {} < program.functions.length + 2 := by
  have hcard : program.unvisited {} ≤ (program.functions.map (·.name)).length :=
    (Finset.card_le_card Finset.sdiff_subset).trans (List.toFinset_card_le _)
  rw [List.length_map] at hcard
  omega

/-- A search that meets a function has fewer functions left. -/
theorem unvisited_lt {function : FunctionDef} (hfunction : program.function? name = some function)
    (hname : name ∉ search.visited) :
    program.unvisited { search with visited := name :: search.visited }
      < program.unvisited search := by
  obtain ⟨hmem, rfl⟩ := mem_functions_of_function? hfunction
  refine Finset.card_lt_card ⟨Finset.sdiff_subset_sdiff (Finset.Subset.refl _) ?_, fun hsub => ?_⟩
  · intro x hx
    simp only [List.mem_toFinset, List.mem_cons] at hx ⊢
    exact Or.inr hx
  · have hin : function.name ∈
        (program.functions.map (·.name)).toFinset \ search.visited.toFinset := by
      simp only [Finset.mem_sdiff, List.mem_toFinset, List.mem_map]
      exact ⟨⟨function, hmem, rfl⟩, hname⟩
    simpa using hsub hin

end Program

/-! ## The search -/

namespace CallSearch

variable {program : Program} {search : CallSearch} {active : List String} {name : String}

theorem Sound.start (program : Program) : Sound program [] {} where
  visited := by simp
  nodup := List.nodup_nil
  active := by simp
  main := by simp
  ordered := program.isPostOrder_nil

/-- The calls of a name that is new are gone through with the name active. -/
theorem Sound.enter (h : search.Sound program active) (hmain : name ≠ entryPoint)
    (hname : name ∉ search.visited) :
    Sound program (name :: active) { search with visited := name :: search.visited } where
  visited := by
    intro x
    simp only [List.mem_cons, h.visited]
    tauto
  nodup := h.nodup
  active := by
    intro x hx
    rcases List.mem_cons.1 hx with rfl | hx
    · exact fun hmem => hname (h.visited.2 (Or.inl hmem))
    · exact h.active hx
  main := by
    simp only [List.mem_cons, not_or]
    exact ⟨hmain.symm, h.main⟩
  ordered := h.ordered

/-- An active name is listed once all that it uses has been met. -/
theorem Sound.finish (h : search.Sound program (name :: active)) (hactive : name ∉ active)
    (hreach : ∀ x ∈ active, ReflTransGen program.Uses x name)
    (huses : ∀ callee, program.Uses name callee → callee ∈ search.visited) :
    Sound program active { search with order := search.order ++ [name] } where
  visited := by
    intro x
    simp only [h.visited, List.mem_append, List.mem_cons, List.not_mem_nil, or_false]
    tauto
  nodup := by
    rw [List.nodup_append]
    refine ⟨h.nodup, List.nodup_singleton name, fun x hx y hy => ?_⟩
    rw [List.mem_singleton.1 hy]
    rintro rfl
    exact h.active List.mem_cons_self hx
  active := by
    intro x hx
    simp only [List.mem_append, List.mem_singleton, not_or]
    exact ⟨h.active (List.mem_cons_of_mem _ hx), fun heq => hactive (heq ▸ hx)⟩
  main := h.main
  ordered := by
    refine h.ordered.append fun callee hcallee => ?_
    rcases h.visited.1 (huses callee hcallee) with hmem | hmem
    · exact Or.inl hmem
    · refine Or.inr ?_
      rcases List.mem_cons.1 hmem with rfl | hmem
      · exact .refl
      · exact hreach callee hmem

end CallSearch

namespace Program

variable {program : Program}

/-- What searching for some names makes of the search before. -/
structure VisitSpec (program : Program) (active names : List String)
    (search after : CallSearch) : Prop where
  sound : after.Sound program active
  grows {x : String} : x ∈ search.visited → x ∈ after.visited
  meets {name : String} : name ∈ names → name ≠ entryPoint → name ∈ after.visited

/-- Searching is sound where all active names lead to the name that is searched for. -/
def VisitsSoundly (program : Program) (depth : Nat) : Prop :=
  ∀ (active : List String) (search : CallSearch) (name : String), search.Sound program active →
    (name ≠ entryPoint → ∀ x ∈ active, ReflTransGen program.Uses x name) →
    program.unvisited search < depth →
    program.VisitSpec active [name] search (program.visit depth search name)

theorem VisitsSoundly.foldl {depth : Nat} (ih : program.VisitsSoundly depth)
    {active : List String} (names : List String) {search : CallSearch}
    (h : search.Sound program active)
    (hactive : ∀ name ∈ names, name ≠ entryPoint → ∀ x ∈ active, ReflTransGen program.Uses x name)
    (hdepth : program.unvisited search < depth) :
    program.VisitSpec active names search (names.foldl (program.visit depth) search) := by
  induction names generalizing search with
  | nil => exact ⟨h, id, nofun⟩
  | cons name names ihnames =>
    rw [List.forall_mem_cons] at hactive
    have hfirst := ih active search name h hactive.1 hdepth
    have hleft := (unvisited_le fun _ => hfirst.grows).trans_lt hdepth
    have hrest := ihnames hfirst.sound hactive.2 hleft
    refine ⟨hrest.sound, fun hx => hrest.grows (hfirst.grows hx), fun hmem hmain => ?_⟩
    rcases List.mem_cons.1 hmem with rfl | hmem
    · exact hrest.grows (hfirst.meets (List.mem_singleton_self _) hmain)
    · exact hrest.meets hmem hmain

/-- A name that is new is listed after its calls were gone through. -/
theorem VisitsSoundly.enter {depth : Nat} (ih : program.VisitsSoundly depth)
    {active : List String} {search : CallSearch} {name : String} (h : search.Sound program active)
    (hmain : name ≠ entryPoint) (hname : name ∉ search.visited)
    (hactive : ∀ x ∈ active, ReflTransGen program.Uses x name)
    (hdepth : program.unvisited search < depth + 1) :
    program.VisitSpec active [name] search (program.visit (depth + 1) search name) := by
  have hnew : name ∉ active := fun hmem => hname (h.visited.2 (Or.inr hmem))
  unfold visit
  rw [if_neg (by simp [hmain, hname])]
  cases hfunction : program.function? name with
  | none =>
    refine ⟨(h.enter hmain hname).finish hnew hactive ?_, List.mem_cons_of_mem _, ?_⟩
    · rintro callee ⟨⟨function, hsome, -⟩, -⟩
      rw [hfunction] at hsome
      cases hsome
    · rintro other hmem -
      exact List.mem_singleton.1 hmem ▸ List.mem_cons_self
  | some function =>
    have hleft := unvisited_lt hfunction hname
    have hcalls := ih.foldl function.callees (h.enter hmain hname) ?_ (by omega)
    · refine ⟨hcalls.sound.finish hnew hactive ?_, fun hx => ?_, fun hmem _ => ?_⟩
      · rintro callee ⟨⟨other, hother, hmem⟩, hcallee⟩
        rw [hfunction] at hother
        cases hother
        exact hcalls.meets hmem hcallee
      · exact hcalls.grows (List.mem_cons_of_mem _ hx)
      · exact hcalls.grows (List.mem_singleton.1 hmem ▸ List.mem_cons_self)
    · intro callee hmem hcallee x hx
      have huses : program.Uses name callee := ⟨⟨function, hfunction, hmem⟩, hcallee⟩
      rcases List.mem_cons.1 hx with rfl | hx
      · exact .single huses
      · exact (hactive x hx).tail huses

theorem visitsSoundly (program : Program) (depth : Nat) : program.VisitsSoundly depth := by
  induction depth with
  | zero => exact fun _ _ _ _ _ hdepth => absurd hdepth (Nat.not_lt_zero _)
  | succ depth ih =>
    intro active search name h hactive hdepth
    by_cases hold : name = entryPoint ∨ name ∈ search.visited
    · unfold visit
      rw [if_pos hold]
      refine ⟨h, id, fun hmem hmain => ?_⟩
      rw [List.mem_singleton.1 hmem] at hmain ⊢
      exact hold.resolve_left hmain
    · obtain ⟨hmain, hname⟩ := not_or.1 hold
      exact ih.enter h hmain hname (hactive hmain) hdepth

/-! ## The order -/

/-- What the order of definitions is good for. -/
structure BindsInOrder (program : Program) (order : List String) : Prop where
  nodup : order.Nodup
  main : entryPoint ∉ order
  ordered : program.IsPostOrder order
  complete {name : String} {function : FunctionDef} :
    program.function? name = some function → name ≠ entryPoint → name ∈ order

/-- The functions but the entry point are listed once each, and after those they use. -/
theorem bindingOrder_sound (program : Program) : program.BindsInOrder program.bindingOrder := by
  obtain ⟨hsound, -, hmeets⟩ := (program.visitsSoundly _).foldl (program.functions.map (·.name))
    (CallSearch.Sound.start program) (by simp) program.unvisited_start_lt
  refine ⟨hsound.nodup, fun hmem => hsound.main (hsound.visited.2 (Or.inl hmem)),
    hsound.ordered, ?_⟩
  intro name function hfunction hname
  obtain ⟨hmem, rfl⟩ := mem_functions_of_function? hfunction
  have hvisited := hmeets (List.mem_map.2 ⟨function, hmem, rfl⟩) hname
  exact (hsound.visited.1 hvisited).resolve_right nofun

end Program

end WhileLang

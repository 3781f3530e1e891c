import Mathlib.Logic.Relation
import WhileLang.Proofs.Running.FrameDiscipline

/-!
# Statements assign their targets

Whatever becomes of the execution of a statement, all it has done to the call stack is a series of
assignments to names that the statement mentions as targets.  So the frames below the current one
are untouched, and the current one binds the names it did before, in their places, with some of the
targets behind them.

Main definitions:

- Function {lit}`Stmt.targets`: the names that a statement assigns.
- Relation {lit}`CallStack.Assigns`: one assignment to one of some names.
- Relation {lit}`Frame.Extends`: a frame binds further names behind those of another one.

Main results:

- Theorem {lit}`exec_assigns`: an execution is a series of assignments to targets.
- Theorem {lit}`evaluation_keepsFrames`: what expressions and statements leave of the frames.
-/

namespace WhileLang

open Relation (ReflTransGen)

/-- The names that a statement assigns, in the order they are written. -/
def Stmt.targets : Stmt → List String
  | .assign name _ => [name]
  | .seq first second => first.targets ++ second.targets
  | .ifThen _ body => body.targets
  | .ifElse _ body alternative => body.targets ++ alternative.targets
  | .loop _ body => body.targets

/-! ## Series of assignments -/

/-- One of the names is assigned. -/
def CallStack.Assigns (names : List String) (stack after : CallStack) : Prop :=
  ∃ name ∈ names, ∃ value, after = stack.assign name value

/-- A series of assignments to some names is one to more names. -/
theorem CallStack.assigns_mono {names more : List String} {stack after : CallStack}
    (h : ReflTransGen (Assigns names) stack after) (hmore : names ⊆ more) :
    ReflTransGen (Assigns more) stack after :=
  ReflTransGen.mono (fun _ _ ⟨name, hname, hvalue⟩ => ⟨name, hmore hname, hvalue⟩) _ _ h

/-- However the execution of a statement ends, it was a series of assignments to its targets. -/
theorem exec_assigns (fuel : Nat) (stmt : Stmt) (stack : CallStack) :
    (exec fuel stmt stack).Leaves (ReflTransGen (CallStack.Assigns stmt.targets) stack) := by
  induction fuel generalizing stmt stack with
  | zero => trivial
  | succ fuel ih =>
    -- Expressions leave the stack as it is, so only what follows them counts.
    have hexpr (names : List String) (expr : Expr) (next : Value → CallStack → Outcome Unit)
        (hnext : ∀ value,
          (next value stack).Leaves (ReflTransGen (CallStack.Assigns names) stack)) :
        ((eval fuel expr stack).andThen next).Leaves
          (ReflTransGen (CallStack.Assigns names) stack) := by
      refine ((evaluation_leaves fuel).eval expr stack).andThen ?_ ?_
      · rintro _ rfl
        exact .refl
      · rintro value _ rfl
        exact hnext value
    have hpart (names : List String) (part : Stmt) (before : CallStack)
        (hbefore : ReflTransGen (CallStack.Assigns names) stack before)
        (hnames : part.targets ⊆ names) :
        (exec fuel part before).Leaves (ReflTransGen (CallStack.Assigns names) stack) :=
      (ih part before).mono fun _ hafter => hbefore.trans (CallStack.assigns_mono hafter hnames)
    cases stmt with
    | assign name value =>
      exact hexpr _ value _ fun result => .single ⟨name, List.mem_singleton_self name, result, rfl⟩
    | seq first second =>
      have hfirst := hpart _ first stack .refl
        (List.subset_append_left first.targets second.targets)
      refine hfirst.andThen (fun _ h => h) fun _ middle hmiddle => ?_
      exact hpart _ second middle hmiddle (List.subset_append_right _ _)
    | ifThen condition body =>
      refine hexpr _ condition _ fun judged => ?_
      split
      · exact hpart _ body stack .refl (List.Subset.refl _)
      · exact .refl
    | ifElse condition body alternative =>
      refine hexpr _ condition _ fun judged => ?_
      split
      · exact hpart _ body stack .refl (List.subset_append_left _ _)
      · exact hpart _ alternative stack .refl (List.subset_append_right _ _)
    | loop condition body =>
      refine hexpr _ condition _ fun judged => ?_
      split
      · refine (hpart _ body stack .refl (List.Subset.refl _)).andThen (fun _ h => h) ?_
        exact fun _ middle hmiddle => hpart _ (.loop condition body) middle hmiddle
          (List.Subset.refl _)
      · exact .refl

/-! ## What a series of assignments leaves -/

namespace Frame

/-- The names that a frame binds, in the order of their first assignment. -/
def names (frame : Frame) : List String :=
  frame.bindings.map (·.1)

/-- The names of the first frame are bound by the second one in their places, and behind them some
of the given names, each once, that the first frame does not bind. -/
def Extends (targets : List String) (frame after : Frame) : Prop :=
  ∃ added, after.names = frame.names ++ added ∧ added.Nodup
    ∧ ∀ name ∈ added, name ∈ targets ∧ name ∉ frame.names

/-- Assigning a name that is not bound yet binds it behind the others. -/
theorem names_set (frame : Frame) (name : String) (value : Value) :
    (frame.set name value).names
      = if name ∈ frame.names then frame.names else frame.names ++ [name] := by
  obtain ⟨bindings⟩ := frame
  simp only [names, set]
  induction bindings with
  | nil => rfl
  | cons binding rest ih =>
    obtain ⟨bound, old⟩ := binding
    unfold assign
    by_cases hbound : bound = name
    · simp [hbound]
    · rw [if_neg hbound, List.map_cons, ih]
      by_cases hrest : name ∈ rest.map (·.1)
      · simp [hrest]
      · simp [hrest, Ne.symm hbound]

theorem Extends.refl (targets : List String) (frame : Frame) : frame.Extends targets frame :=
  ⟨[], (List.append_nil _).symm, List.nodup_nil, nofun⟩

/-- An assignment to a target keeps what a frame extends. -/
theorem Extends.set {targets : List String} {frame after : Frame} (h : frame.Extends targets after)
    {name : String} (hname : name ∈ targets) (value : Value) :
    frame.Extends targets (after.set name value) := by
  obtain ⟨added, hnames, hnodup, hadded⟩ := h
  by_cases hbound : name ∈ after.names
  · exact ⟨added, by rw [names_set, if_pos hbound, hnames], hnodup, hadded⟩
  · refine ⟨added ++ [name], by rw [names_set, if_neg hbound, hnames, List.append_assoc], ?_, ?_⟩
    all_goals rw [hnames, List.mem_append, not_or] at hbound
    · refine List.nodup_append.2 ⟨hnodup, List.pairwise_singleton _ name, ?_⟩
      rintro other hother _ hlast rfl
      exact hbound.2 (List.mem_singleton.1 hlast ▸ hother)
    · intro other hother
      rcases List.mem_append.1 hother with hother | hother
      · exact hadded other hother
      · rw [List.mem_singleton.1 hother]
        exact ⟨hname, hbound.1⟩

end Frame

/-- A series of assignments extends the current frame, and leaves the other ones. -/
theorem CallStack.extends_of_assigns {names : List String} {stack after : CallStack}
    (h : ReflTransGen (Assigns names) stack after) :
    stack.SameBelow after ∧ stack.current.Extends names after.current := by
  induction h with
  | refl => exact ⟨.refl stack, .refl names stack.current⟩
  | tail _ hstep ih =>
    obtain ⟨name, hname, value, rfl⟩ := hstep
    exact ⟨ih.1.trans (.assign _ name value), ih.2.set hname value⟩

/--
Frame discipline, for every outcome: an expression leaves the stack as it was, and a statement
leaves the frames below the current one, and the names bound in that, behind which it binds targets
of its own only, each once.
-/
theorem evaluation_keepsFrames (fuel : Nat) (stack : CallStack) :
    (∀ expr, (eval fuel expr stack).Leaves (· = stack)) ∧
      ∀ stmt, (exec fuel stmt stack).Leaves fun after =>
        after.depth = stack.depth ∧ stack.SameBelow after
          ∧ stack.current.Extends stmt.targets after.current := by
  refine ⟨fun expr => (evaluation_leaves fuel).eval expr stack, fun stmt => ?_⟩
  refine (exec_assigns fuel stmt stack).mono fun after hafter => ?_
  obtain ⟨hbelow, hcurrent⟩ := CallStack.extends_of_assigns hafter
  refine ⟨?_, hbelow, hcurrent⟩
  obtain ⟨frame, rfl⟩ := hbelow
  rfl

end WhileLang

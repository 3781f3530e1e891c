import WhileLang.Value

/-!
# Frames

The variables of one active call, in the order they were first assigned.

Main definitions:

- Type {lit}`Frame`.
- Functions {lit}`Frame.get?` and {lit}`Frame.set`: assigning a name again keeps its place.
-/

namespace WhileLang

/-- The bindings of an active call. -/
structure Frame where
  bindings : List (String × Value) := []
deriving DecidableEq, Inhabited

namespace Frame

/-- A frame without bindings. -/
def empty : Frame :=
  {}

/-- The value bound to a name. -/
def get? (frame : Frame) (name : String) : Option Value :=
  frame.bindings.lookup name

/-- Bindings with a name set: in its place if it is bound, at the end otherwise. -/
def assign (name : String) (value : Value) : List (String × Value) → List (String × Value)
  | [] => [(name, value)]
  | (bound, old) :: rest =>
    if bound = name then (name, value) :: rest else (bound, old) :: assign name value rest

/-- Bind a name to a value. -/
def set (frame : Frame) (name : String) (value : Value) : Frame :=
  ⟨assign name value frame.bindings⟩

/-- Whether no name is bound. -/
def isEmpty (frame : Frame) : Bool :=
  frame.bindings.isEmpty

/-- The frame in which the given names were set in order. -/
def ofList (bindings : List (String × Value)) : Frame :=
  bindings.foldl (fun frame binding => frame.set binding.1 binding.2) empty

/-! ## Reading what was set -/

/-- Nothing is bound in an empty frame. -/
@[simp]
theorem get?_empty (name : String) : empty.get? name = none :=
  rfl

/-- Looking up in bindings of which one was set. -/
private theorem lookup_assign (name other : String) (value : Value)
    (bindings : List (String × Value)) :
    (assign name value bindings).lookup other
      = if other = name then some value else bindings.lookup other := by
  induction bindings with
  | nil =>
    by_cases h : other = name
    · simp [assign, h]
    · simp [assign, h, List.lookup_cons, beq_eq_false_iff_ne.2 h]
  | cons binding rest ih =>
    obtain ⟨bound, old⟩ := binding
    unfold assign
    split
    · rename_i hbound
      subst hbound
      by_cases h : other = bound
      · simp [h]
      · simp [h, List.lookup_cons, beq_eq_false_iff_ne.2 h]
    · rename_i hbound
      by_cases h : other = bound
      · subst h
        simp [hbound]
      · simp [List.lookup_cons, beq_eq_false_iff_ne.2 h, ih]

/-- A name that was set has its new value, and the others keep theirs. -/
theorem get?_set (frame : Frame) (name other : String) (value : Value) :
    (frame.set name value).get? other = if other = name then some value else frame.get? other :=
  lookup_assign name other value frame.bindings

end Frame

end WhileLang

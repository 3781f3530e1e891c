import WhileLang.Ty

/-!
# Substitutions

Finite maps from type variables to types.

Main definitions:

- Type {lit}`Subst`, a list of bindings without an order of its own.
- Function {lit}`Subst.apply`: replace every bound variable once.
- Function {lit}`Subst.merge`: substitute the bindings into each other until nothing changes.
- Function {lit}`Subst.isIdempotent`: whether no bound variable occurs in a bound type.
-/

namespace WhileLang

/-- A finite map from type variables to types. -/
structure Subst where
  entries : List (String × Ty) := []
deriving DecidableEq, Inhabited

namespace Subst

/-! ## Bindings -/

/-- The substitution that binds nothing. -/
def empty : Subst :=
  {}

/-- The substitution that binds one variable. -/
def single (name : String) (type : Ty) : Subst :=
  ⟨[(name, type)]⟩

/-- The type bound to a variable. -/
def get? (subst : Subst) (name : String) : Option Ty :=
  subst.entries.lookup name

/-- Whether a variable is bound. -/
def binds (subst : Subst) (name : String) : Bool :=
  (subst.get? name).isSome

/-- Bindings with a variable bound anew. -/
def rebind (name : String) (type : Ty) : List (String × Ty) → List (String × Ty)
  | [] => [(name, type)]
  | (bound, old) :: rest =>
    if bound = name then (name, type) :: rest else (bound, old) :: rebind name type rest

/-- Bind a variable; a binding it has already is replaced. -/
def insert (subst : Subst) (name : String) (type : Ty) : Subst :=
  ⟨rebind name type subst.entries⟩

/-- The number of bindings. -/
def size (subst : Subst) : Nat :=
  subst.entries.length

/-- Whether nothing is bound. -/
def isEmpty (subst : Subst) : Bool :=
  subst.entries.isEmpty

/-- The bindings sorted by the names of the variables. -/
def bindings (subst : Subst) : List (String × Ty) :=
  subst.entries.mergeSort fun left right => decide (left.1 ≤ right.1)

/-- Looking up in bindings of which one was made anew. -/
private theorem lookup_rebind (name other : String) (type : Ty) (entries : List (String × Ty)) :
    (rebind name type entries).lookup other
      = if other = name then some type else entries.lookup other := by
  induction entries with
  | nil =>
    by_cases h : other = name
    · simp [rebind, h]
    · simp [rebind, h, List.lookup_cons, beq_eq_false_iff_ne.2 h]
  | cons entry rest ih =>
    obtain ⟨bound, old⟩ := entry
    unfold rebind
    split
    · rename_i hbound
      subst hbound
      by_cases h : other = bound
      · simp [h]
      · simp [h, List.lookup_cons, beq_eq_false_iff_ne.2 h]
    · rename_i hbound
      by_cases h : other = bound
      · subst h
        simp [hbound]
      · simp [List.lookup_cons, beq_eq_false_iff_ne.2 h, ih]

/-- Nothing is bound by the empty substitution. -/
@[simp]
theorem get?_empty (name : String) : empty.get? name = none :=
  rfl

/-- A variable that was bound has its new type, and the others keep theirs. -/
theorem get?_insert (subst : Subst) (name other : String) (type : Ty) :
    (subst.insert name type).get? other = if other = name then some type else subst.get? other :=
  lookup_rebind name other type subst.entries

/-- One variable is bound by a single binding. -/
theorem get?_single (name other : String) (type : Ty) :
    (single name type).get? other = if other = name then some type else none :=
  get?_insert empty name other type

/-! ## Application -/

/-- Replace every bound variable of a type once. -/
def apply (subst : Subst) : Ty → Ty
  | .var name => (subst.get? name).getD (.var name)
  | .con name => .con name
  | .arrow domain codomain => .arrow (subst.apply domain) (subst.apply codomain)

/-- The empty substitution changes nothing. -/
@[simp]
theorem apply_empty (type : Ty) : empty.apply type = type := by
  induction type with
  | var name => rfl
  | con name => rfl
  | arrow domain codomain ihd ihc => rw [apply, ihd, ihc]

/-- Change the types of all bindings. -/
def mapTypes (subst : Subst) (f : Ty → Ty) : Subst :=
  ⟨subst.entries.map fun (name, type) => (name, f type)⟩

/-! ## Merging -/

/-- Whether no bound variable occurs in a bound type. -/
def isIdempotent (subst : Subst) : Bool :=
  subst.entries.all fun (_, type) => type.occurrences.all fun name => !subst.binds name

/-- Substitute all bindings into each other at once, for at most the given number of rounds. -/
def settle : Nat → Subst → Subst
  | 0, subst => subst
  | rounds + 1, subst =>
    if subst.isIdempotent then subst else settle rounds (subst.mapTypes subst.apply)

/--
Substitute the bindings into each other until nothing changes.  One round for each binding and one
more is enough unless the bindings form a cycle, which no number of rounds would settle.
-/
def merge (subst : Subst) : Subst :=
  settle (subst.size + 1) subst

end Subst

end WhileLang

import WhileLang.Proofs.Term.Parts

/-!
# The table of a walk

A walk over a term that ends well adds one row for each of its nodes.  The rows come in post-order
and their nodes are numbered in pre-order, so that the rows of the parts of any node stand together,
from where its own row says up to this row itself.

Main definitions:

- Relation {lit}`Term.HasRows`: the rows of a term, node by node.
- Predicate {lit}`IsNested`: the rows up to any row end with those of its parts.
- Structure {lit}`TypeEnv.Tabulates`: rows were added for a term, and say where their parts are.

Main results:

- Theorem {lit}`Term.infer_hasRows`: what a walk adds to the table.
- Theorem {lit}`Term.HasRows.isNested`: the rows of a part of a term are the rows of this part.
- Theorem {lit}`Term.infer_tabulates`: a walk tabulates its term.
- Theorem {lit}`Term.positionOf_of_infer`: rows are found by the numbers of their nodes.
-/

namespace WhileLang

/-! ## The rows of a term -/

/--
The rows that a term has in a table, from a first one on.  Nodes are numbered when they are entered
and have their rows when they are left.
-/
inductive Term.HasRows : Term → (first node : Nat) → List Subterm → Prop where
  | var {leaf : TermVar} {first node : Nat} (type : Ty) :
      HasRows (.var leaf) first node [⟨node, .var leaf, type, first⟩]
  | literal {value : Value} {first node : Nat} (type : Ty) :
      HasRows (.literal value) first node [⟨node, .literal value, type, first⟩]
  | app {function argument : Term} {first node : Nat} {left right : List Subterm} (type : Ty)
      (hfunction : function.HasRows first (node + 1) left)
      (hargument : argument.HasRows (first + left.length) (node + 1 + left.length) right) :
      HasRows (.app function argument) first node
        (left ++ right ++ [⟨node, .app function argument, type, first⟩])
  | abs {param : TermVar} {body : Term} {first node : Nat} {inner : List Subterm}
      (paramType type : Ty) (hbody : body.HasRows (first + 1) (node + 1 + 1) inner) :
      HasRows (.abs param body) first node
        (⟨node + 1, .var param, paramType, first⟩ :: inner
          ++ [⟨node, .abs param body, type, first⟩])
  | letIn {name : TermVar} {bound body : Term} {first node : Nat} {left right : List Subterm}
      (type : Ty) (hbound : bound.HasRows first (node + 1) left)
      (hbody : body.HasRows (first + left.length) (node + 1 + left.length) right) :
      HasRows (.letIn name bound body) first node
        (left ++ right ++ [⟨node, .letIn name bound body, type, first⟩])

/-! ## Steps of a walk -/

/-- Rows were added to the table, for as many nodes as were numbered. -/
structure TypeEnv.AddsRows (before after : TypeEnv) (rows : List Subterm) : Prop where
  subterms : after.subterms.toList = before.subterms.toList ++ rows
  nextNode : after.nextNode = before.nextNode + rows.length

namespace TypeEnv

variable {before middle after : TypeEnv} {left right : List Subterm} (env : TypeEnv)

namespace AddsRows

theorem trans (h : before.AddsRows middle left) (h' : middle.AddsRows after right) :
    before.AddsRows after (left ++ right) where
  subterms := by rw [h'.subterms, h.subterms, List.append_assoc]
  nextNode := by rw [h'.nextNode, h.nextNode, List.length_append, Nat.add_assoc]

theorem size (h : before.AddsRows after left) :
    after.subterms.size = before.subterms.size + left.length := by
  rw [← Array.length_toList, h.subterms, List.length_append, Array.length_toList]

end AddsRows

/-- Without new rows and nodes the table is the same. -/
theorem addsRows_nil (hsubterms : after.subterms = before.subterms)
    (hnode : after.nextNode = before.nextNode) : before.AddsRows after [] :=
  ⟨by rw [hsubterms, List.append_nil], hnode⟩

theorem addsRows_variableType (var : TermVar) : env.AddsRows (env.variableType var).2 [] := by
  unfold variableType
  split
  · exact addsRows_nil rfl rfl
  · exact addsRows_nil rfl rfl

theorem addsRows_instantiate (type : Ty) : env.AddsRows (env.instantiate type).2 [] := by
  have hafter := (env.renameFresh_spec type.vars).after_eq
  change env.AddsRows (env.renameFresh type.vars).2 []
  rw [hafter]
  exact addsRows_nil rfl rfl

/-- To look up the type of a name leaves the table as it is. -/
theorem addsRows_leaf (var : TermVar) : env.AddsRows (env.leaf var).2 [] := by
  unfold leaf globalLeaf
  split
  · exact env.addsRows_variableType var
  split
  · exact addsRows_nil rfl rfl
  split
  · exact addsRows_nil rfl rfl
  split
  · exact env.addsRows_instantiate _
  · exact env.addsRows_variableType var

end TypeEnv

namespace Inference

variable (before : Inference) (name : TermVar)

theorem addsRows_withName : before.within.env.AddsRows (before.withName name).env [] :=
  before.within.env.addsRows_variableType name

/-- A parameter has a row of its own, with the number behind that of its abstraction. -/
theorem addsRows_withParam : ∃ type, before.within.env.AddsRows (before.withParam name).env
    [⟨before.env.nextNode + 1, .var name, type, before.env.subterms.size⟩] := by
  have hvariable := before.within.env.addsRows_variableType name
  have hsize := hvariable.size
  have hnode := hvariable.nextNode
  rw [List.length_nil, Nat.add_zero] at hsize hnode
  refine ⟨(before.within.env.variableType name).1, ?_, congrArg (· + 1) hnode⟩
  simp only [withParam, TypeEnv.recordParam, TypeEnv.newNode, TypeEnv.record, Array.toList_push,
    hvariable.subterms, hsize, hnode, List.append_nil]
  rfl

/-- A node that is left has its row behind those that were added within it. -/
theorem addsRows_close {before : Inference} (inside : Inference) {rows : List Subterm}
    (h : before.within.env.AddsRows inside.env rows) (term : Term) (left right : Ty) :
    before.env.AddsRows (before.close term (inside.withEnv (·.constrain left right))).env
      (rows ++ [before.row term]) where
  subterms := by
    rw [← List.append_assoc]
    exact (before.subterms_close _ term).trans (congrArg (· ++ [before.row term]) h.subterms)
  nextNode := by
    rw [List.length_append, List.length_singleton, ← Nat.add_assoc, Nat.add_right_comm]
    exact h.nextNode

end Inference

namespace Term

variable {term : Term} {before after : Inference} {type : Ty}

/-- A walk that ends well adds the rows of the term. -/
theorem infer_hasRows (h : term.infer before = (.ok type, after)) :
    ∃ rows, before.env.AddsRows after.env rows
      ∧ term.HasRows before.env.subterms.size before.env.nextNode rows := by
  induction term generalizing before type after with
  | var leaf =>
    have hleaf := before.within.env.addsRows_leaf leaf
    cases h
    exact ⟨_, Inference.addsRows_close ⟨_, before.reports⟩ hleaf (.var leaf) _ _, .var _⟩
  | literal value =>
    cases h
    exact ⟨_, Inference.addsRows_close before.within (TypeEnv.addsRows_nil rfl rfl)
      (.literal value) _ _, .literal _⟩
  | app function argument ihf iha =>
    obtain ⟨_, _, middle, inside, hfunction, hargument, -, rfl⟩ := infer_app_ok h
    obtain ⟨left, hleft, hfunction⟩ := ihf hfunction
    obtain ⟨right, hright, hargument⟩ := iha hargument
    rw [hleft.size, hleft.nextNode] at hargument
    exact ⟨_, Inference.addsRows_close inside (hleft.trans hright) _ _ _,
      .app _ hfunction hargument⟩
  | abs param body ih =>
    obtain ⟨_, inside, hbody, -, rfl⟩ := infer_abs_ok h
    obtain ⟨paramType, hparam⟩ := before.addsRows_withParam param
    obtain ⟨inner, hinner, hbody⟩ := ih hbody
    rw [hparam.size, hparam.nextNode] at hbody
    exact ⟨_, Inference.addsRows_close inside (hparam.trans hinner) _ _ _, .abs _ _ hbody⟩
  | letIn name bound body ihb iha =>
    obtain ⟨solved, solution, inside, hbound, -, hbody, rfl⟩ := infer_letIn_solved h
    have hname := before.addsRows_withName name
    obtain ⟨left, hleft, hbound⟩ := ihb hbound
    obtain ⟨right, hright, hbody⟩ := iha hbody
    rw [hname.size, hname.nextNode] at hbound
    have hnext : solved.env.AddsRows (before.next name solved solution).env [] :=
      TypeEnv.addsRows_nil rfl rfl
    have hsolved := hname.trans (hleft.trans hnext)
    rw [List.nil_append, List.append_nil] at hsolved
    rw [hsolved.size, hsolved.nextNode] at hbody
    exact ⟨_, Inference.addsRows_close inside (hsolved.trans hright) _ _ _, .letIn _ hbound hbody⟩

end Term

/-! ## The rows of the parts -/

/-- The rows up to any row end with those of its parts, which start where this row says. -/
def IsNested (first : Nat) (rows : List Subterm) : Prop :=
  ∀ front row behind, rows = front ++ row :: behind →
    ∃ outside inner, front = outside ++ inner ∧ row.first = first + outside.length
      ∧ row.term.HasRows row.first row.node (inner ++ [row])

namespace IsNested

variable {first : Nat} {left right rows : List Subterm}

theorem append (h : IsNested first left) (h' : IsNested (first + left.length) right) :
    IsNested first (left ++ right) := by
  intro front row behind hsplit
  have hright (rest : List Subterm) (hfront : front = left ++ rest)
      (hrest : right = rest ++ row :: behind) : ∃ outside inner, front = outside ++ inner
        ∧ row.first = first + outside.length
        ∧ row.term.HasRows row.first row.node (inner ++ [row]) := by
    obtain ⟨outside, inner, rfl, hfirst, hrows⟩ := h' rest row behind hrest
    refine ⟨left ++ outside, inner, ?_, ?_, hrows⟩
    · rw [hfront, List.append_assoc]
    · rw [hfirst, List.length_append, Nat.add_assoc]
  rcases List.append_eq_append_iff.1 hsplit with ⟨rest, hfront, hrest⟩ | ⟨rest, hleft, hrest⟩
  · exact hright rest hfront hrest
  · cases rest with
    | nil =>
      rw [List.append_nil] at hleft
      exact hright [] (by rw [hleft, List.append_nil]) hrest.symm
    | cons other rest =>
      cases hrest
      exact h front row rest hleft

/-- A term has its own row behind those of its parts. -/
theorem close {term : Term} {node : Nat} {type : Ty} (h : IsNested first rows)
    (hrows : term.HasRows first node (rows ++ [⟨node, term, type, first⟩])) :
    IsNested first (rows ++ [⟨node, term, type, first⟩]) := by
  intro front row behind hsplit
  rcases List.eq_nil_or_concat behind with rfl | ⟨others, last, rfl⟩
  · obtain ⟨rfl, hrow⟩ := List.append_inj' hsplit rfl
    cases hrow
    exact ⟨[], rows, rfl, rfl, hrows⟩
  · rw [List.concat_eq_append, ← List.cons_append, ← List.append_assoc] at hsplit
    exact h front row others (List.append_inj' hsplit rfl).1

theorem singleton {term : Term} {node : Nat} {type : Ty}
    (hrows : term.HasRows first node [⟨node, term, type, first⟩]) :
    IsNested first [⟨node, term, type, first⟩] := by
  have hnone : IsNested first [] := fun _ _ _ hsplit => by simp at hsplit
  exact hnone.close hrows

end IsNested

namespace Term.HasRows

variable {term : Term} {first node : Nat} {rows : List Subterm}

/-- The rows of a term are those of its parts, in post-order. -/
theorem map_term (h : term.HasRows first node rows) : rows.map (·.term) = term.postOrder := by
  induction h with
  | var | literal => rfl
  | app type hfunction hargument ihf iha => simp [postOrder, ihf, iha]
  | abs paramType type hbody ih => simp [postOrder, ih]
  | letIn type hbound hbody ihb iha => simp [postOrder, ihb, iha]

/-- The rows of a part of a term are the rows of this part. -/
theorem isNested (h : term.HasRows first node rows) : IsNested first rows := by
  induction h with
  | var type => exact .singleton (.var type)
  | literal type => exact .singleton (.literal type)
  | app type hfunction hargument ihf iha =>
    exact (ihf.append iha).close (.app type hfunction hargument)
  | abs paramType type hbody ih =>
    exact ((IsNested.singleton (.var paramType)).append ih).close (.abs paramType type hbody)
  | letIn type hbound hbody ihb iha => exact (ihb.append iha).close (.letIn type hbound hbody)

/-- The nodes of a term are numbered one after the other. -/
theorem nodes_perm (h : term.HasRows first node rows) :
    (rows.map (·.node)).Perm (List.range' node rows.length) := by
  induction h with
  | var | literal => exact List.Perm.refl _
  | @app _ _ _ node left right type _ _ ihf iha | @letIn _ _ _ _ node left right type _ _ ihf iha =>
    rw [List.map_append, List.map_append, List.length_append, List.length_append,
      List.length_singleton, List.range'_succ, ← List.range'_append_1]
    exact (List.perm_append_singleton _ _).trans ((ihf.append iha).cons node)
  | @abs _ _ _ node inner _ _ _ ih =>
    rw [List.cons_append, List.map_cons, List.map_append, List.length_cons, List.length_append,
      List.length_singleton, List.range'_succ, List.range'_succ]
    exact ((List.perm_append_singleton _ _).cons _).trans
      ((List.Perm.swap node (node + 1) _).trans ((ih.cons (node + 1)).cons node))

end Term.HasRows

/-! ## Places in the table -/

namespace TypeEnv

/-- The rows from a first one up to a last one. -/
def rows (env : TypeEnv) (first stop : Nat) : List Subterm :=
  (env.subterms.toList.take stop).drop first

theorem rows_eq {env : TypeEnv} {outside own behind : List Subterm} {first stop : Nat}
    (h : env.subterms.toList = outside ++ own ++ behind) (hfirst : first = outside.length)
    (hstop : stop = first + own.length) : env.rows first stop = own := by
  rw [rows, h, List.take_left' (by rw [List.length_append, hstop, hfirst]), hfirst, List.drop_left]

/-- The rows that were added are those of the parts of a term, and say where their parts are. -/
structure Tabulates (before after : TypeEnv) (term : Term) : Prop where
  terms : after.subterms.toList.map (·.term)
    = before.subterms.toList.map (·.term) ++ term.postOrder
  /-- The rows from the first of a node up to its own are those of this node and its parts. -/
  parts {index : Nat} {row : Subterm} : before.subterms.size ≤ index →
    after.subterms[index]? = some row → before.subterms.size ≤ row.first ∧ row.first ≤ index
      ∧ row.term.HasRows row.first row.node (after.rows row.first (index + 1))
      ∧ (after.rows row.first (index + 1)).map (·.term) = row.term.postOrder

/-- Where all nodes are different, a row is found by the number of its node. -/
theorem positionOf_node {env : TypeEnv} (h : (env.subterms.toList.map (·.node)).Nodup)
    {index : Nat} {row : Subterm} (hrow : env.subterms[index]? = some row) :
    env.positionOf row.node = some index := by
  obtain ⟨hlt, hget⟩ := Array.getElem?_eq_some_iff.1 hrow
  unfold positionOf
  rw [List.findRev?_eq_find?_reverse]
  cases hfound : (List.range env.subterms.size).reverse.find?
      (fun place => (env.subterms[place]?).any (·.node == row.node)) with
  | none =>
    have hmissed := List.find?_eq_none.1 hfound index (by simpa using hlt)
    simp [hrow] at hmissed
  | some place =>
    have hplace := List.find?_some hfound
    obtain ⟨other, hother, hnode⟩ := (Option.any_eq_true _ _).1 hplace
    have hsame : (env.subterms.toList.map (·.node))[index]?
        = (env.subterms.toList.map (·.node))[place]? := by
      rw [List.getElem?_map, List.getElem?_map, Array.getElem?_toList, Array.getElem?_toList, hrow,
        hother, Option.map_some, Option.map_some, eq_of_beq hnode]
    rw [(List.getElem?_inj (by simpa using hlt) h).1 hsame]

end TypeEnv

namespace Term

variable {term : Term} {before after : Inference} {type : Ty}

/-- A walk that ends well tabulates its term. -/
theorem infer_tabulates (h : term.infer before = (.ok type, after)) :
    before.env.Tabulates after.env term := by
  obtain ⟨rows, hadds, hrows⟩ := infer_hasRows h
  refine ⟨infer_postOrder h, fun {index row} hle hrow => ?_⟩
  obtain ⟨place, rfl⟩ := Nat.exists_eq_add_of_le hle
  have hplace : rows[place]? = some row := by
    rw [← Array.getElem?_toList, hadds.subterms, ← Array.length_toList,
      List.getElem?_append_right (Nat.le_add_right _ _), Nat.add_sub_cancel_left] at hrow
    exact hrow
  obtain ⟨hlt, hget⟩ := List.getElem?_eq_some_iff.1 hplace
  have hsplit : rows = rows.take place ++ row :: rows.drop (place + 1) := by
    rw [← hget, List.getElem_cons_drop, List.take_append_drop]
  obtain ⟨outside, inner, hfront, hfirst, hpart⟩ := hrows.isNested _ _ _ hsplit
  have hlength : place = outside.length + inner.length := by
    rw [← List.length_append, ← hfront, List.length_take_of_le hlt.le]
  have hall : after.env.subterms.toList = (before.env.subterms.toList ++ outside)
      ++ (inner ++ [row]) ++ rows.drop (place + 1) := by
    rw [hadds.subterms]
    conv_lhs => rw [hsplit, hfront]
    simp only [List.append_assoc, List.singleton_append]
  have hsize : before.env.subterms.toList.length = before.env.subterms.size :=
    Array.length_toList
  have hown : after.env.rows row.first (before.env.subterms.size + place + 1)
      = inner ++ [row] := by
    refine TypeEnv.rows_eq hall ?_ ?_
    · rw [List.length_append, hsize, hfirst]
    · rw [List.length_append, List.length_singleton]
      omega
  rw [hown]
  exact ⟨by omega, by omega, hpart, hpart.map_term⟩

/-- A walk from the empty table finds every row by the number of its node. -/
theorem positionOf_of_infer (h : term.infer .empty = (.ok type, after)) {index : Nat}
    {row : Subterm} (hrow : after.env.subterms[index]? = some row) :
    after.env.positionOf row.node = some index := by
  obtain ⟨rows, hadds, hrows⟩ := infer_hasRows h
  refine TypeEnv.positionOf_node ?_ hrow
  rw [hadds.subterms]
  exact hrows.nodes_perm.nodup_iff.2 List.nodup_range'

end Term

end WhileLang

import Mathlib
import SharedExpr.Double.Basic
import SharedExpr.Proofs.Dag.Table

/-! Interning is canonical: equal nodes are one node. -/
namespace SharedExpr.Dag

variable {α : Type} [Scalar α]

/-- The tables that interning and resetting lead to, the operands of a new node being nodes. -/
inductive Interned : Dag α → Prop
  | empty : Interned empty
  | intern {d : Dag α} {node : Node α} (h : Interned d) (hx : ∀ x ∈ node.operands, x < d.count) :
    Interned (d.intern node).2
  | reset {d : Dag α} (h : Interned d) : Interned empty

variable {d : Dag α}

theorem Interned.wellFormed (h : d.Interned) : d.WellFormed := by
  induction h with
  | empty => exact wellFormed_empty
  | intern _ hx ih => exact ih.intern hx
  | reset _ _ => exact wellFormed_empty

/-- The table of every sequence of operations keeps the invariant; equal nodes are one node, nodes
are numbered without a gap, and interning finds the node that is there or adds one under the next
number. -/
theorem Interned.canonical (h : d.Interned) :
    d.WellFormed ∧ (∀ id, (d.node? id).isSome ↔ id < d.count) ∧
    (∀ (a b : NodeId) (node : Node α), d.node? a = some node → d.node? b = some node → a = b) ∧
    ∀ node : Node α,
      (∀ id, d.node? id = some node → d.intern node = (id, d)) ∧
      ((∀ id, d.node? id ≠ some node) →
        (d.intern node).1 = d.count ∧ (d.intern node).2.count = d.count + 1 ∧
        ∀ id, (d.intern node).2.node? id = if id = d.count then some node else d.node? id) := by
  have hw := h.wellFormed
  refine ⟨hw, isSome_node?, ?_, ?_⟩
  · intro a b node ha hb
    have hab := ((hw.index_iff node a).2 ha).symm.trans ((hw.index_iff node b).2 hb)
    exact Option.some.inj hab
  · intro node
    refine ⟨fun id hid => intern_of_node? hw hid, fun hnew => ?_⟩
    rw [intern_of_new hw hnew]
    exact ⟨rfl, count_append node, node?_append hw node⟩

/-- A variable and its square, which reads the variable at both positions. -/
def squareTable : Dag Double :=
  ((empty.intern ⟨.var "x", []⟩).2.intern ⟨.binary .pow, [0, 0]⟩).2

theorem interned_squareTable : squareTable.Interned := by
  refine .intern (.intern .empty (by simp)) fun x hx => ?_
  obtain rfl : x = 0 := by simpa using hx
  cbv

/-- The square of a variable is found when it is interned again. -/
theorem squareTable_canonical :
    squareTable.Interned ∧ squareTable.WellFormed ∧
    squareTable.node? 1 = some ⟨.binary .pow, [0, 0]⟩ ∧
    squareTable.intern ⟨.binary .pow, [0, 0]⟩ = (1, squareTable) := by
  have hn : squareTable.node? 1 = some ⟨.binary .pow, [0, 0]⟩ := by cbv
  obtain ⟨hw, -, -, hi⟩ := interned_squareTable.canonical
  exact ⟨interned_squareTable, hw, hn, (hi _).1 1 hn⟩

/-- Both uses of the variable are listed, the last position first. -/
example : squareTable.uses 0 = [⟨1, 1⟩, ⟨1, 0⟩] := by cbv

end SharedExpr.Dag

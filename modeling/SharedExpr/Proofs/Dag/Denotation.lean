import Mathlib.Logic.Relation
import SharedExpr.Dag.Unfold
import SharedExpr.Proofs.Dag.Growth

/-! The value of a node by recursion on the expression under it, read as a tree. -/
namespace SharedExpr

variable {α : Type} [Scalar α]

/-- The value of a node from those of its operands. A gradient has the value of its first part. -/
def Label.denote (ρ : String → α) : Label α → List α → α
  | .lit value, _ => value
  | .var name, _ => ρ name
  | .unary op, x :: _ => Scalar.unary op x
  | .binary op, x :: y :: _ => Scalar.binary op x y
  | .gradient _, primal :: _ => primal
  | _, _ => Scalar.zero

namespace Dag

/-- The value of a node under an assignment of the variables. -/
def denote (d : Dag α) (ρ : String → α) (id : NodeId) : α :=
  d.unfold (fun _ => Scalar.zero) (fun _ label => label.denote ρ) id

/-- The nodes under a node, itself included. -/
def Reaches (d : Dag α) : NodeId → NodeId → Prop :=
  Relation.ReflTransGen fun consumer x => x ∈ d.operands consumer

variable {d d' : Dag α}

theorem denote_eq (h : d.WellFormed) (ρ : String → α) {id : NodeId} {node : Node α}
    (hn : d.node? id = some node) :
    d.denote ρ id = node.label.denote ρ (node.operands.map (d.denote ρ)) := by
  have hx : ∀ x ∈ node.operands, x < id := by
    rw [← operands_of_node? hn]
    exact h.operands_lt id
  exact d.unfold_eq _ _ hn hx

theorem denote_of_bundle? (h : d.WellFormed) (ρ : String → α) {x : NodeId} {parts : Bundle}
    (hb : d.bundle? x = some parts) : d.denote ρ x = d.denote ρ parts.primal :=
  denote_eq h ρ (bundle?_eq_some_iff.1 hb)

/-- A fold of the expression under a node is the same while the graph grows. -/
theorem Extends.unfold {β : Type} (he : Extends d d') (h : d.WellFormed) (outside : NodeId → β)
    (combine : NodeId → Label α → List β → β) {id : NodeId} (hid : id < d.count) :
    d'.unfold outside combine id = d.unfold outside combine id := by
  induction id using Nat.strongRecOn with
  | _ id ih =>
    obtain ⟨node, hn⟩ := exists_node? hid
    have hx : ∀ x ∈ node.operands, x < id := by
      rw [← operands_of_node? hn]
      exact h.operands_lt id
    rw [unfold_eq d _ _ hn hx, unfold_eq d' _ _ (he id node hn) hx]
    congr 1
    exact List.map_congr_left fun x hm => ih x (hx x hm) (Nat.lt_trans (hx x hm) hid)

theorem Extends.denote (he : Extends d d') (h : d.WellFormed) (ρ : String → α) {id : NodeId}
    (hid : id < d.count) : d'.denote ρ id = d.denote ρ id :=
  he.unfold h _ _ hid

theorem Grows.denote (hg : Grows d d') (h : d.Lawful) (ρ : String → α) {id : NodeId}
    (hid : id < d.count) : d'.denote ρ id = d.denote ρ id :=
  (hg.extends_ h).denote h.wellFormed ρ hid

theorem denote_intern (h : d.Lawful) {node : Node α} (hn : d.Admits node) (ρ : String → α) :
    (d.intern node).2.denote ρ (d.intern node).1 =
      node.label.denote ρ (node.operands.map (d.denote ρ)) := by
  have hg : d.Grows (d.intern node).2 := .intern (.refl d) hn
  rw [denote_eq (hg.lawful h).wellFormed ρ (node?_intern h.wellFormed node)]
  congr 1
  exact List.map_congr_left fun x hx => hg.denote h ρ (hn.operand_lt x hx)

theorem Reaches.le (h : d.WellFormed) {a b : NodeId} (hr : d.Reaches a b) : b ≤ a := by
  induction hr with
  | refl => exact Nat.le_refl _
  | tail _ hx ih => exact Nat.le_trans (Nat.le_of_lt (h.operands_lt _ _ hx)) ih

theorem Reaches.lt_count (h : d.WellFormed) {a b : NodeId} (ha : a < d.count)
    (hr : d.Reaches a b) : b < d.count :=
  Nat.lt_of_le_of_lt (hr.le h) ha

theorem Extends.reaches (he : Extends d d') (h : d.WellFormed) {a b : NodeId}
    (hr : d.Reaches a b) : d'.Reaches a b := by
  induction hr with
  | refl => exact .refl
  | @tail c x _ hx ih =>
    by_cases hc : c < d.count
    · exact ih.tail (he.operands hc ▸ hx)
    · rw [operands_eq_nil h (Nat.le_of_not_lt hc)] at hx
      cases hx

/-- What is under a node is settled when the node is there. -/
theorem Extends.reaches_iff (he : Extends d d') (h : d.WellFormed) {a b : NodeId}
    (ha : a < d.count) : d'.Reaches a b ↔ d.Reaches a b := by
  refine ⟨fun hr => ?_, he.reaches h⟩
  induction hr with
  | refl => exact .refl
  | tail _ hx ih => exact ih.tail (he.operands (ih.lt_count h ha) ▸ hx)

end Dag

end SharedExpr

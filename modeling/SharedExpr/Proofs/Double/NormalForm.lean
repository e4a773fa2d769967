import Mathlib
import SharedExpr.Double.Basic
import SharedExpr.Proofs.Session

/-! The normal form of every graph of doubles that operations lead to. -/
namespace SharedExpr

namespace Dag

section Chains

variable {α : Type} [Scalar α] {d : Dag α} {op : Binary} {root id : NodeId}

/-- The nodes of an operator that are reached from a node through nodes of this operator only. -/
def Chain (d : Dag α) (op : Binary) : NodeId → NodeId → Prop :=
  Relation.ReflTransGen fun consumer x => x ∈ d.operands consumer ∧ d.label? x = some (.binary op)

theorem Chain.label? (h : d.Chain op root id) (hr : d.label? root = some (.binary op)) :
    d.label? id = some (.binary op) := by
  cases h with
  | refl => exact hr
  | tail _ h => exact h.2

theorem Lawful.ordered (h : d.Lawful) (hop : op.commutes) (hid : d.label? id = some (.binary op)) :
    ∃ x y, d.node? id = some ⟨.binary op, [x, y]⟩ ∧ d.Ordered op x y := by
  obtain ⟨⟨label, operands⟩, hn⟩ := exists_node? (Array.getElem?_eq_some_iff.1 hid).1
  obtain rfl : label = .binary op := Option.some.inj ((label?_of_node? hn).symm.trans hid)
  cases h.normal hn with
  | add ho | mul ho => exact ⟨_, _, hn, ho⟩
  | sub | div | pow => cases hop

/-- A literal in a chain of sums or of products is the left operand of the first one. -/
theorem Lawful.literal_first (h : d.Lawful) (hop : op.commutes)
    (hr : d.label? root = some (.binary op)) (hc : d.Chain op root id) {p : Nat} {z : NodeId}
    (hz : (d.operands id)[p]? = some z) (hl : d.isLiteral z) : id = root ∧ p = 0 := by
  obtain ⟨x, y, hn, ho⟩ := h.ordered hop (hc.label? hr)
  rw [operands_of_node? hn] at hz
  match p with
  | 0 =>
    obtain rfl : x = z := by simpa using hz
    refine ⟨?_, rfl⟩
    cases hc with
    | refl => rfl
    | @tail consumer _ hc hid =>
      -- The consumer is of the same operator, whose operands have no literal on their left.
      obtain ⟨a, b, hn', ho'⟩ := h.ordered hop (Chain.label? hc hr)
      have hid' : id = a ∨ id = b := by simpa [operands_of_node? hn'] using hid.1
      rcases hid' with rfl | rfl
      · exact absurd ⟨hn, hl⟩ (ho'.left_not_prefixed x y)
      · exact absurd ⟨hn, hl⟩ (ho'.right_not_prefixed x y)
  | 1 =>
    obtain rfl : y = z := by simpa using hz
    rw [ho.right_not_literal] at hl
    cases hl
  | p + 2 => simp at hz

end Chains

variable {d : Dag Double}

theorem Lawful.literal_ne_negativeZero (h : d.Lawful) {id : NodeId} {value : Double}
    (hl : d.literal? id = some value) : value.bits ≠ 0x8000000000000000 := by
  obtain ⟨⟨label, operands⟩, hn⟩ := exists_node?
    (Array.getElem?_eq_some_iff.1 (label?_of_literal? hl)).1
  obtain rfl : label = .lit value :=
    Option.some.inj ((label?_of_node? hn).symm.trans (label?_of_literal? hl))
  cases h.normal hn with
  | lit hv =>
    intro hbits
    obtain rfl : value = ⟨0x8000000000000000⟩ := congrArg Double.mk hbits
    revert hv
    decide

/-- All nodes are in normal form, whatever operations have led to the graph and whether they
succeeded or failed: no literal is a negative zero, and a chain of sums or of products holds at
most one literal, on the left of its first node. -/
theorem Reachable.nodes_normal (h : d.Reachable) :
    (∀ id node, d.node? id = some node → d.Normal node ∧ ∀ x ∈ node.operands, x < id) ∧
    (∀ id value, d.literal? id = some value → value.bits ≠ 0x8000000000000000) ∧
    ∀ (op : Binary) (root id p z : Nat), op.commutes → d.label? root = some (.binary op) →
      d.Chain op root id → (d.operands id)[p]? = some z → d.isLiteral z → id = root ∧ p = 0 := by
  have hd := h.lawful
  refine ⟨fun id node hn => ⟨hd.normal hn, fun x hx => ?_⟩,
    fun id value hl => hd.literal_ne_negativeZero hl,
    fun op root id p z hop hr hc hz hl => hd.literal_first hop hr hc hz hl⟩
  exact hd.wellFormed.operands_lt id x (operands_of_node? hn ▸ hx)

/-- Twice a variable, and a zero. -/
def twice : Dag Double :=
  ((Command.lit ⟨0x8000000000000000⟩).run
    ((Command.build (.binary .mul (.var "x") (.lit Double.two))).run empty).2).2

theorem reachable_twice : twice.Reachable := by
  have hmul : ((Command.build (.binary .mul (.var "x") (.lit Double.two))).run
      (empty : Dag Double)).1 = some (.node 2) := by cbv
  have hzero : ((Command.lit ⟨0x8000000000000000⟩).run
      ((Command.build (.binary .mul (.var "x") (.lit Double.two))).run (empty : Dag Double)).2).1 =
      some (.node 3) := by cbv
  exact (Reachable.empty.next hmul).next hzero

/-- The literal of `x * 2` stands on the left, and there alone; the negative zero is stored as
zero. -/
theorem twice_nodes_normal :
    twice.node? 2 = some ⟨.binary .mul, [1, 0]⟩ ∧ twice.Normal ⟨.binary .mul, [1, 0]⟩ ∧
      twice.literal? 3 = some ⟨0⟩ ∧
      ∀ id p z, twice.Chain .mul 2 id → (twice.operands id)[p]? = some z → twice.isLiteral z →
        id = 2 ∧ p = 0 := by
  obtain ⟨hnormal, -, hchain⟩ := reachable_twice.nodes_normal
  have hn : twice.node? 2 = some ⟨.binary .mul, [1, 0]⟩ := by cbv
  exact ⟨hn, (hnormal 2 _ hn).1, by cbv, fun id p z =>
    hchain .mul 2 id p z rfl (label?_of_node? hn)⟩

end Dag

end SharedExpr

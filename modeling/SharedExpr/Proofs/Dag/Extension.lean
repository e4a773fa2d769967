import SharedExpr.Proofs.Dag.Table

/-! Extension of a graph by further nodes. -/
namespace SharedExpr.Dag

variable {α : Type} [Scalar α] {d d' d'' : Dag α}

/-- Every node of the first graph is the same node of the second. -/
def Extends (d d' : Dag α) : Prop :=
  ∀ id node, d.node? id = some node → d'.node? id = some node

namespace Extends

theorem refl (d : Dag α) : Extends d d :=
  fun _ _ h => h

theorem trans (h : Extends d d') (h' : Extends d' d'') : Extends d d'' :=
  fun id node hn => h' id node (h id node hn)

theorem count_le (h : Extends d d') : d.count ≤ d'.count := by
  by_contra hc
  obtain ⟨node, hn⟩ : ∃ node, d.node? d'.count = some node := exists_node? (Nat.lt_of_not_le hc)
  exact Nat.lt_irrefl _ (lt_of_node? (h _ _ hn))

theorem lt_count (h : Extends d d') {id : NodeId} (hid : id < d.count) : id < d'.count :=
  Nat.lt_of_lt_of_le hid h.count_le

theorem node? (h : Extends d d') {id : NodeId} (hid : id < d.count) : d'.node? id = d.node? id := by
  obtain ⟨node, hn⟩ := exists_node? hid
  rw [hn, h id node hn]

theorem label? (h : Extends d d') {id : NodeId} (hid : id < d.count) :
    d'.label? id = d.label? id := by
  obtain ⟨node, hn⟩ := exists_node? hid
  rw [label?_of_node? hn, label?_of_node? (h id node hn)]

theorem operands (h : Extends d d') {id : NodeId} (hid : id < d.count) :
    d'.operands id = d.operands id := by
  obtain ⟨node, hn⟩ := exists_node? hid
  rw [operands_of_node? hn, operands_of_node? (h id node hn)]

theorem isLiteral (h : Extends d d') {id : NodeId} (hid : id < d.count) :
    d'.isLiteral id = d.isLiteral id := by
  rw [Dag.isLiteral, Dag.isLiteral, Dag.literal?, Dag.literal?, h.label? hid]

theorem name? (h : Extends d d') {id : NodeId} (hid : id < d.count) : d'.name? id = d.name? id := by
  rw [Dag.name?, Dag.name?, h.label? hid]

theorem literal? (h : Extends d d') {id : NodeId} (hid : id < d.count) :
    d'.literal? id = d.literal? id := by
  rw [Dag.literal?, Dag.literal?, h.label? hid]

theorem hasValue (h : Extends d d') {id : NodeId} (hid : id < d.count) (value : α) :
    d'.hasValue id value = d.hasValue id value := by
  rw [Dag.hasValue, Dag.hasValue, h.label? hid]

theorem negated? (h : Extends d d') {id : NodeId} (hid : id < d.count) :
    d'.negated? id = d.negated? id := by
  rw [Dag.negated?, Dag.negated?, h.node? hid]

end Extends

theorem lt_of_isSome_name? {id : NodeId} (h : (d.name? id).isSome) : id < d.count := by
  obtain ⟨name, hname⟩ := Option.isSome_iff_exists.1 h
  obtain ⟨label, hl, -⟩ := Option.bind_eq_some_iff.1 hname
  exact (Array.getElem?_eq_some_iff.1 hl).1

theorem extends_intern (h : d.WellFormed) (node : Node α) : Extends d (d.intern node).2 := by
  rcases intern_cases h node with ⟨id, -, hi⟩ | ⟨-, hi⟩
  · rw [hi]
    exact .refl d
  · rw [hi]
    intro id n hid
    rw [node?_append h, if_neg (Nat.ne_of_lt (lt_of_node? hid))]
    exact hid

/-- Whether found or added, the number that interning answers stands for the node. -/
theorem node?_intern (h : d.WellFormed) (node : Node α) :
    (d.intern node).2.node? (d.intern node).1 = some node := by
  rcases intern_cases h node with ⟨id, hid, hi⟩ | ⟨-, hi⟩
  · rw [hi]
    exact hid
  · rw [hi, node?_append h, if_pos rfl]

/-- The tables that interning leads to have the nodes of the table before and the new one. -/
theorem node?_of_intern (h : d.WellFormed) {node n : Node α} {id : NodeId}
    (hn : (d.intern node).2.node? id = some n) : d.node? id = some n ∨ n = node := by
  rcases intern_cases h node with ⟨id', -, hi⟩ | ⟨-, hi⟩
  · rw [hi] at hn
    exact Or.inl hn
  · rw [hi, node?_append h] at hn
    split at hn
    · exact Or.inr (Option.some.inj hn).symm
    · exact Or.inl hn

end SharedExpr.Dag

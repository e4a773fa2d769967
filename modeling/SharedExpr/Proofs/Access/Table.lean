import SharedExpr.Access.Table
import SharedExpr.Proofs.Dag.Growth

/-! Every access to a node of a graph finds what it looks for. -/
namespace SharedExpr

theorem Access.mapM_eq {β γ : Type} {f : β → Access γ} {g : β → γ} {xs : List β}
    (h : ∀ x ∈ xs, f x = some (g x)) : xs.mapM f = some (xs.map g) := by
  induction xs with
  | nil => rfl
  | cons x xs ih =>
    obtain ⟨hx, hxs⟩ := List.forall_mem_cons.1 h
    rw [List.mapM_cons, hx, ih hxs]
    rfl

namespace Dag

variable {α : Type} [Scalar α] {d : Dag α} {id : NodeId}

theorem labelAt_of_node? {node : Node α} (hn : d.node? id = some node) :
    d.labelAt id = some node.label :=
  label?_of_node? hn

/-- The span of a node lies within the slots. -/
theorem operandsAt_eq (h : d.WellFormed) (hid : id < d.count) :
    d.operandsAt id = some (d.operands id) := by
  obtain ⟨span, hs⟩ : ∃ span, d.spans[id]? = some span :=
    ⟨_, Array.getElem?_eq_getElem (h.size_spans ▸ hid)⟩
  have hle := h.spans_tile.end_le (Array.mem_toList_iff.2 (Array.mem_of_getElem? hs))
  rw [operandsAt, operands, hs]
  exact if_pos hle

theorem operandsAt_of_node? (h : d.WellFormed) {node : Node α} (hn : d.node? id = some node) :
    d.operandsAt id = some node.operands := by
  rw [operandsAt_eq h (lt_of_node? hn), operands_of_node? hn]

theorem exists_labelAt (hid : id < d.count) :
    ∃ label, d.labelAt id = some label ∧ d.label? id = some label := by
  obtain ⟨node, hn⟩ := exists_node? hid
  exact ⟨node.label, labelAt_of_node? hn, label?_of_node? hn⟩

theorem literalAt_eq (hid : id < d.count) : d.literalAt id = some (d.literal? id) := by
  obtain ⟨label, hl, hl'⟩ := exists_labelAt hid
  rw [literalAt, literal?, hl, hl']
  rfl

theorem nameAt_eq (hid : id < d.count) : d.nameAt id = some (d.name? id) := by
  obtain ⟨label, hl, hl'⟩ := exists_labelAt hid
  rw [nameAt, name?, hl, hl']
  rfl

theorem isLiteralAt_eq (hid : id < d.count) : d.isLiteralAt id = some (d.isLiteral id) := by
  obtain ⟨label, hl, hl'⟩ := exists_labelAt hid
  rw [isLiteralAt, isLiteral, literal?, hl, hl']
  rfl

theorem hasValueAt_eq (hid : id < d.count) (value : α) :
    d.hasValueAt id value = some (d.hasValue id value) := by
  obtain ⟨label, hl, hl'⟩ := exists_labelAt hid
  rw [hasValueAt, hasValue, hl, hl']
  rfl

theorem isGradientAt_eq (hid : id < d.count) :
    d.isGradientAt id = some ((d.label? id).any Label.isGradient) := by
  obtain ⟨label, hl, hl'⟩ := exists_labelAt hid
  rw [isGradientAt, hl, hl']
  rfl

theorem negatedAt_eq (h : d.Lawful) (hid : id < d.count) :
    d.negatedAt id = some (d.negated? id) := by
  obtain ⟨node, hn⟩ := exists_node? hid
  rw [negatedAt, negated?, labelAt_of_node? hn, operandsAt_of_node? h.wellFormed hn, hn]
  cases h.admits hn with
  | lit | var | binary | gradient => rfl
  | unary op => cases op <;> rfl

theorem bundleAt_eq (h : d.Lawful) (hid : id < d.count) : d.bundleAt id = some (d.bundle? id) := by
  obtain ⟨node, hn⟩ := exists_node? hid
  rw [bundleAt, bundle?, labelAt_of_node? hn, operandsAt_of_node? h.wellFormed hn, hn]
  cases h.admits hn <;> rfl

theorem addUseAt_eq {x : NodeId} (hx : x < d.newest.size) (use : Use) :
    d.addUseAt x use = some (d.addUse x use) := by
  have hn : d.newest[x]? = some d.newest[x] := Array.getElem?_eq_getElem hx
  rw [addUseAt, addUse, hn, Array.getD_eq_getD_getElem?, hn]
  rfl

/-- The operands of a new node have places for its uses. -/
theorem foldlM_addUseAt (consumer : NodeId) {slots : List (NodeId × Nat)}
    (hs : ∀ slot ∈ slots, slot.1 < d.newest.size) :
    slots.foldlM (fun d slot => d.addUseAt slot.1 ⟨consumer, slot.2⟩) d =
      some (d.addUses consumer slots) := by
  induction slots generalizing d with
  | nil => rfl
  | cons slot slots ih =>
    obtain ⟨hx, hs⟩ := List.forall_mem_cons.1 hs
    have hsize : (d.addUse slot.1 ⟨consumer, slot.2⟩).newest.size = d.newest.size :=
      Array.size_setIfInBounds
    rw [List.foldlM_cons, addUseAt_eq hx]
    exact ih fun s hm => hsize ▸ hs s hm

theorem internAt_eq (h : d.WellFormed) {node : Node α} (hx : ∀ x ∈ node.operands, x < d.count) :
    d.internAt node = some (d.intern node) := by
  have hs : ∀ slot ∈ node.operands.zipIdx, slot.1 < d.newest.size := by
    rintro ⟨x, i⟩ hm
    rw [h.size_newest]
    exact hx x (List.mem_of_getElem? (List.mem_zipIdx_iff_getElem?.1 hm))
  rw [internAt, intern]
  cases d.index[node]? with
  | some id => rfl
  | none =>
    dsimp only
    rw [appendAt, foldlM_addUseAt d.count hs]
    rfl

end Dag

end SharedExpr

import SharedExpr.Dag.Basic

/-! The expression under a node, read as a tree. -/
namespace SharedExpr.Dag

variable {α : Type} [Scalar α]

/-- Folds the expression under a node as a tree, a shared node once for each of its uses. Operands
are older than their node; `outside` stands for all else. -/
def unfold {β : Type} (d : Dag α) (outside : NodeId → β)
    (combine : NodeId → Label α → List β → β) (id : NodeId) : β :=
  match d.label? id with
  | none => outside id
  | some label =>
    combine id label <| (d.operands id).map fun x =>
      if x < id then d.unfold outside combine x else outside x
termination_by id

theorem unfold_eq {β : Type} (d : Dag α) (outside : NodeId → β)
    (combine : NodeId → Label α → List β → β) {id : NodeId} {node : Node α}
    (hn : d.node? id = some node) (hx : ∀ x ∈ node.operands, x < id) :
    d.unfold outside combine id =
      combine id node.label (node.operands.map (d.unfold outside combine)) := by
  obtain ⟨label, hl, rfl⟩ := Option.map_eq_some_iff.1 hn
  rw [unfold, hl]
  exact congrArg (combine id label) (List.map_congr_left fun x h => if_pos (hx x h))

end SharedExpr.Dag

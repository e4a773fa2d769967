import SharedExpr.Dag.Basic

/-! Access to the columns of a graph, with nothing in place of what a column does not hold. -/
namespace SharedExpr

/-- A reading of columns and operands. There is none if a place is read that is not there. -/
abbrev Access := Option

namespace Dag

variable {α : Type} [Scalar α]

def labelAt (d : Dag α) (id : NodeId) : Access (Label α) :=
  d.labels[id]?

/-- The slots of a node's span, all of which have to be there. -/
def operandsAt (d : Dag α) (id : NodeId) : Access (List NodeId) := do
  let span ← d.spans[id]?
  if span.start + span.count ≤ d.slots.size then
    return (d.slots.extract span.start (span.start + span.count)).toList
  else none

def literalAt (d : Dag α) (id : NodeId) : Access (Option α) :=
  (d.labelAt id).map Label.literal?

def nameAt (d : Dag α) (id : NodeId) : Access (Option String) :=
  (d.labelAt id).map Label.name?

def isLiteralAt (d : Dag α) (id : NodeId) : Access Bool :=
  (d.labelAt id).map Label.isLiteral

def hasValueAt (d : Dag α) (id : NodeId) (value : α) : Access Bool :=
  (d.labelAt id).map (Label.hasValue · value)

def isGradientAt (d : Dag α) (id : NodeId) : Access Bool :=
  (d.labelAt id).map Label.isGradient

/-- The operand of a negation, which has to have one. -/
def negatedAt (d : Dag α) (id : NodeId) : Access (Option NodeId) := do
  match ← d.labelAt id with
  | .unary .neg => return some (← (← d.operandsAt id)[0]?)
  | _ => return none

/-- The parts of a gradient, which has to have a first one. -/
def bundleAt (d : Dag α) (id : NodeId) : Access (Option Bundle) := do
  match ← d.labelAt id with
  | .gradient vars =>
    let operands ← d.operandsAt id
    return some ⟨← operands[0]?, operands.drop 1, vars⟩
  | _ => return none

/-- Records a use at the head of the chain of its operand, which has to have a place for one. -/
def addUseAt (d : Dag α) (operand : NodeId) (use : Use) : Access (Dag α) := do
  let older ← d.newest[operand]?
  return { d with
    newest := d.newest.setIfInBounds operand (some d.links.size)
    links := d.links.push ⟨use, older⟩ }

def appendAt (d : Dag α) (node : Node α) : Access (Dag α) := do
  let id := d.count
  let span : Span := ⟨d.slots.size, node.operands.length⟩
  let d ← node.operands.zipIdx.foldlM (fun d use => d.addUseAt use.1 ⟨id, use.2⟩) d
  return { d with
    labels := d.labels.push node.label
    spans := d.spans.push span
    slots := d.slots ++ node.operands
    newest := d.newest.push none
    index := d.index.insert node id }

def internAt (node : Node α) (d : Dag α) : Access (NodeId × Dag α) :=
  match d.index[node]? with
  | some id => some (id, d)
  | none => (d.appendAt node).map (d.count, ·)

end Dag

end SharedExpr

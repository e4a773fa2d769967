import Std.Data.HashMap
import SharedExpr.Scalar

/-! The table of a shared expression graph, in which equal nodes are one node. -/
namespace SharedExpr

/-- The number of a node. Nodes are numbered from zero in the order of their creation. -/
abbrev NodeId := Nat

/-- What a node is, its operands apart. -/
inductive Label (α : Type) where
  | lit (value : α)
  | var (name : String)
  | unary (op : Unary)
  | binary (op : Binary)
  /-- A value with its partial derivatives, one for each of `vars`. -/
  | gradient (vars : List NodeId)
  deriving DecidableEq, Hashable

namespace Label

variable {α : Type}

def literal? : Label α → Option α
  | .lit value => some value
  | _ => none

def name? : Label α → Option String
  | .var name => some name
  | _ => none

def isLiteral (label : Label α) : Bool :=
  label.literal?.isSome

def isGradient : Label α → Bool
  | .gradient _ => true
  | _ => false

/-- Whether the label is a literal of this value, compared as numbers. -/
def hasValue [Scalar α] (label : Label α) (value : α) : Bool :=
  label.literal?.any (Scalar.same · value)

end Label

/-- A label with the operands under it: all that tells one node from another. -/
structure Node (α : Type) where
  label : Label α
  operands : List NodeId
  deriving DecidableEq, Hashable

/-- An occurrence of a node as an operand. -/
structure Use where
  consumer : NodeId
  position : Nat
  deriving DecidableEq

structure Span where
  start : Nat
  count : Nat
  deriving DecidableEq

/-- A use, with the number of the use of the same node recorded before it. -/
structure Link where
  use : Use
  older : Option Nat
  deriving DecidableEq

/-- A shared expression graph. All operands stand in one array of slots, of which every node owns
a span; the uses of a node are chained from the newest to the oldest. -/
structure Dag (α : Type) [Scalar α] where
  labels : Array (Label α)
  slots : Array NodeId
  spans : Array Span
  newest : Array (Option Nat)
  links : Array Link
  index : Std.HashMap (Node α) NodeId

namespace Dag

variable {α : Type} [Scalar α]

def empty : Dag α :=
  ⟨#[], #[], #[], #[], #[], ∅⟩

instance : Inhabited (Dag α) := ⟨empty⟩

def count (d : Dag α) : Nat :=
  d.labels.size

def contains (d : Dag α) (id : NodeId) : Bool :=
  id < d.count

def label? (d : Dag α) (id : NodeId) : Option (Label α) :=
  d.labels[id]?

/-- The operands of a node, in order; none for a number that names no node. -/
def operands (d : Dag α) (id : NodeId) : List NodeId :=
  match d.spans[id]? with
  | some span => (d.slots.extract span.start (span.start + span.count)).toList
  | none => []

def node? (d : Dag α) (id : NodeId) : Option (Node α) :=
  (d.label? id).map fun label => ⟨label, d.operands id⟩

def literal? (d : Dag α) (id : NodeId) : Option α :=
  (d.label? id).bind Label.literal?

def name? (d : Dag α) (id : NodeId) : Option String :=
  (d.label? id).bind Label.name?

def isLiteral (d : Dag α) (id : NodeId) : Bool :=
  (d.literal? id).isSome

def hasValue (d : Dag α) (id : NodeId) (value : α) : Bool :=
  (d.label? id).any (Label.hasValue · value)

def negated? (d : Dag α) (id : NodeId) : Option NodeId :=
  match d.node? id with
  | some ⟨.unary .neg, x :: _⟩ => some x
  | _ => none

/-- A gradient as its value, its partial derivatives and its variables. -/
structure Bundle where
  primal : NodeId
  partials : List NodeId
  vars : List NodeId
  deriving DecidableEq

def bundle? (d : Dag α) (id : NodeId) : Option Bundle :=
  match d.node? id with
  | some ⟨.gradient vars, primal :: partials⟩ => some ⟨primal, partials, vars⟩
  | _ => none

/-- The chain of uses that begins at a link. Links point to older ones only. -/
def usesFrom (links : Array Link) (i : Nat) : List Use :=
  match links[i]? with
  | none => []
  | some link =>
    link.use ::
      match link.older with
      | none => []
      | some j => if j < i then usesFrom links j else []
termination_by i

def uses (d : Dag α) (id : NodeId) : List Use :=
  match d.newest[id]? with
  | some (some i) => usesFrom d.links i
  | _ => []

def addUse (d : Dag α) (operand : NodeId) (use : Use) : Dag α :=
  let older := d.newest.getD operand none
  { d with
    newest := d.newest.setIfInBounds operand (some d.links.size)
    links := d.links.push ⟨use, older⟩ }

def append (d : Dag α) (node : Node α) : Dag α :=
  let id := d.count
  let span : Span := ⟨d.slots.size, node.operands.length⟩
  let d := node.operands.zipIdx.foldl (fun d use => d.addUse use.1 ⟨id, use.2⟩) d
  { d with
    labels := d.labels.push node.label
    spans := d.spans.push span
    slots := d.slots ++ node.operands
    newest := d.newest.push none
    index := d.index.insert node id }

/-- The node equal to the given one, which is added if there is none. Its operands should be nodes
of the graph. -/
def intern (node : Node α) (d : Dag α) : NodeId × Dag α :=
  match d.index[node]? with
  | some id => (id, d)
  | none => (d.count, d.append node)

def intern? (node : Node α) (d : Dag α) : Option (NodeId × Dag α) :=
  if node.operands.all d.contains then some (d.intern node) else none

end Dag

abbrev Build (α : Type) [Scalar α] :=
  StateM (Dag α)

namespace Build

variable {α : Type} [Scalar α]

def node (label : Label α) (operands : List NodeId) : Build α NodeId :=
  Dag.intern ⟨label, operands⟩

/-- A literal; every zero is the same one. -/
def lit (value : α) : Build α NodeId :=
  node (.lit (Scalar.normal value)) []

def zero : Build α NodeId := lit Scalar.zero
def one : Build α NodeId := lit Scalar.one

def var (name : String) : Build α NodeId :=
  node (.var name) []

end Build

end SharedExpr

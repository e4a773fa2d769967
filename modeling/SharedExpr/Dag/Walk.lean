import SharedExpr.Dag.Basic

/-! The depth-first walk of the expression under a node. -/
namespace SharedExpr

structure Walk where
  /-- The nodes reached, every operand before its consumers. -/
  order : Array NodeId
  /-- The variables reached, by name. -/
  freeVars : List NodeId
  /-- By node, the uses within the walk, in the order in which they were met. -/
  uses : Array (Array Use)

namespace Walk

def usesOf (w : Walk) (id : NodeId) : Array Use :=
  w.uses.getD id #[]

/-- A node entered and not yet left, with the operands that are still to be looked at. -/
structure Frame where
  node : NodeId
  position : Nat
  pending : List NodeId

structure State where
  visited : Array Bool
  order : Array NodeId
  vars : Array NodeId
  uses : Array (Array Use)

namespace State

def unvisited (s : State) : Nat :=
  s.visited.count false

def record (s : State) (operand : NodeId) (use : Use) : State :=
  { s with uses := s.uses.modify operand (·.push use) }

def leave (s : State) (node : NodeId) : State :=
  { s with order := s.order.push node }

end State

variable {α : Type} [Scalar α]

def visit (d : Dag α) (s : State) (id : NodeId) : State :=
  { s with
    visited := s.visited.setIfInBounds id true
    vars := if (d.name? id).isSome then s.vars.push id else s.vars }

theorem unvisited_visit (d : Dag α) (s : State) {id : NodeId} (h : s.visited[id]? = some false) :
    (visit d s id).unvisited < s.unvisited := by
  obtain ⟨hi, hf⟩ := Array.getElem?_eq_some_iff.1 h
  have hc : 0 < s.visited.count false := Array.count_pos_iff.2 (hf ▸ Array.getElem_mem hi)
  rw [State.unvisited, visit, Array.setIfInBounds, dif_pos hi, Array.count_set,
    if_pos (beq_iff_eq.2 hf), if_neg (by decide)]
  exact Nat.sub_lt hc Nat.one_pos

/-- The steps left on a stack if it meets no new node. -/
def remaining : List Frame → Nat
  | [] => 0
  | frame :: rest => frame.pending.length + 1 + remaining rest

/-- Works off a stack of frames. An operand met for the first time is entered before the next one
is looked at, and a node is left after its last operand. -/
def run (d : Dag α) (s : State) : List Frame → State
  | [] => s
  | ⟨node, _, []⟩ :: rest => run d (s.leave node) rest
  | ⟨node, position, x :: pending⟩ :: rest =>
    let s := s.record x ⟨node, position⟩
    let rest := ⟨node, position + 1, pending⟩ :: rest
    if _h : s.visited[x]? = some false then run d (visit d s x) (⟨x, 0, d.operands x⟩ :: rest)
    else run d s rest
termination_by stack => (s.unvisited, remaining stack)
decreasing_by
  · exact Prod.Lex.right _ (by simp [remaining])
  · exact Prod.Lex.left _ _ (unvisited_visit d _ ‹_›)
  · exact Prod.Lex.right _ (by simp [remaining])

def start (d : Dag α) : State :=
  ⟨.replicate d.count false, #[], #[], .replicate d.count #[]⟩

/-- Variables by name, those of one name as they were met. -/
def byName (d : Dag α) (vars : List NodeId) : List NodeId :=
  vars.mergeSort fun x y => (d.name? x).getD "" ≤ (d.name? y).getD ""

end Walk

def Dag.walk {α : Type} [Scalar α] (d : Dag α) (root : NodeId) : Walk :=
  let s := Walk.run d (Walk.visit d (Walk.start d) root) [⟨root, 0, d.operands root⟩]
  ⟨s.order, Walk.byName d s.vars.toList, s.uses⟩

def Dag.walk? {α : Type} [Scalar α] (d : Dag α) (root : NodeId) : Option Walk :=
  if d.contains root then some (d.walk root) else none

def Dag.freeVars {α : Type} [Scalar α] (d : Dag α) (root : NodeId) : List NodeId :=
  (d.walk root).freeVars

end SharedExpr

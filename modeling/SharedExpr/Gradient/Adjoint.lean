import SharedExpr.Dag.Walk
import SharedExpr.Gradient.Local

/-! Adjoints: derivatives of a root with respect to the nodes under it, summed over their uses. -/
namespace SharedExpr

variable {α : Type} [Scalar α]

structure Adjoints where
  root : NodeId
  walk : Walk
  memo : Std.HashMap NodeId NodeId

namespace Adjoints

def start (root : NodeId) (walk : Walk) : Adjoints :=
  ⟨root, walk, ∅⟩

def size (t : Adjoints) : Nat :=
  t.memo.size

def insert (t : Adjoints) (node adjoint : NodeId) : Adjoints :=
  { t with memo := t.memo.insert node adjoint }

/-- An adjoint that needs no summation: a known one, or that of the root, which is one. -/
def known? (t : Adjoints) (node : NodeId) (d : Dag α) : Option NodeId × Adjoints × Dag α :=
  match t.memo[node]? with
  | some adjoint => (some adjoint, t, d)
  | none =>
    if node = t.root then
      let (one, d) := Build.one d
      (some one, t.insert node one, d)
    else (none, t, d)

/-- A summation under way: the uses still to be added and the sum of the others. -/
structure Frame where
  node : NodeId
  pending : List Use
  sum : NodeId

def frame (t : Adjoints) (node : NodeId) (d : Dag α) : Frame × Dag α :=
  let (sum, d) := Build.zero d
  (⟨node, (t.walk.usesOf node).toList, sum⟩, d)

/-- Works off a stack of summations in a bounded number of steps. A consumer whose adjoint is not
known yet is summed before the use that asked for it. -/
def run : Nat → List Frame → Adjoints → Dag α → Except Fault Unit × Adjoints × Dag α
  | 0, _, t, d => (.error (.misuse .noAdjoint), t, d)
  | _ + 1, [], t, d => (.ok (), t, d)
  | steps + 1, top :: rest, t, d =>
    match top.pending with
    | [] => run steps rest (t.insert top.node top.sum) d
    | use :: pending =>
      match t.known? use.consumer d with
      | (none, t, d) =>
        let (frame, d) := t.frame use.consumer d
        run steps (frame :: top :: rest) t d
      | (some weight, t, d) =>
        match derivative use.consumer use.position d with
        | (.error fault, d) => (.error fault, t, d)
        | (.ok slope, d) =>
          let (term, d) := (Application.binary .mul weight slope).build d
          let (sum, d) := (Application.binary .add top.sum term).build d
          run steps ({ top with pending, sum } :: rest) t d

/-- A number of steps that suffices: each node under the root is put on the stack once and taken
off once, and each use is added once. -/
def budget (t : Adjoints) : Nat :=
  2 * t.walk.uses.size + (t.walk.uses.foldl (fun n uses => n + uses.size) 0) + 4

/-- The adjoint of a node: the sum, over its uses within the walk, of the consumer's adjoint times
the derivative of the consumer at that use. A node without uses has the adjoint zero. A failure
keeps the adjoints known by then. -/
def adjoint (t : Adjoints) (node : NodeId) (d : Dag α) : Except Fault NodeId × Adjoints × Dag α :=
  match t.known? node d with
  | (some adjoint, t, d) => (.ok adjoint, t, d)
  | (none, t, d) =>
    let (frame, d) := t.frame node d
    match run t.budget [frame] t d with
    | (.error fault, t, d) => (.error fault, t, d)
    | (.ok (), t, d) =>
      match t.memo[node]? with
      | some adjoint => (.ok adjoint, t, d)
      | none => (.error (.misuse .noAdjoint), t, d)

def adjoints : List NodeId → Adjoints → Dag α → Except Fault (List NodeId) × Adjoints × Dag α
  | [], t, d => (.ok [], t, d)
  | node :: nodes, t, d =>
    match t.adjoint node d with
    | (.error fault, t, d) => (.error fault, t, d)
    | (.ok first, t, d) =>
      let (rest, t, d) := adjoints nodes t d
      (rest.map (first :: ·), t, d)

end Adjoints

end SharedExpr

import SharedExpr.Dag.Basic
import SharedExpr.Eval.Memo
import SharedExpr.Fault

/-! The expression under a node as an indented outline, each node with its value. A node that was
met before is a reference to the level at which it was met first. -/
namespace SharedExpr

namespace Outline

/-- How a line hangs from the one above it. -/
inductive Branch where
  | root
  | inner
  | last
  /-- Under the heading of a part of a gradient that is not its last. -/
  | part
  | lastPart
  deriving DecidableEq

namespace Branch

def text : Branch → String
  | root => ""
  | inner => "|--"
  | last => "`--"
  | part => "|  `-- "
  | lastPart => "   `-- "

/-- What goes on below the branch, in front of the lines that hang from it. -/
def below : Branch → String
  | root => ""
  | inner => "|  "
  | last => "   "
  | part => "|      "
  | lastPart => "       "

end Branch

structure Margin where
  stem : String
  branch : Branch
  deriving DecidableEq

namespace Margin

def text (m : Margin) : String :=
  m.stem ++ m.branch.text

def hang (m : Margin) (branch : Branch) : Margin :=
  ⟨m.stem ++ m.branch.below, branch⟩

end Margin

inductive Entry where
  /-- A node met for the first time. -/
  | node (margin : Margin) (level : Nat) (id : NodeId)
  /-- A node met before, first at the given level. -/
  | again (margin : Margin) (id : NodeId) (level : Nat)
  /-- The heading of the value of a gradient. -/
  | primal (margin : Margin)
  /-- The heading of a partial derivative. -/
  | derivative (margin : Margin) (var : NodeId)
  deriving DecidableEq

/-- What is still to be written: a line, or a node with all that hangs from it. -/
inductive Task where
  | line (entry : Entry)
  | visit (margin : Margin) (level : Nat) (id : NodeId)

variable {α : Type} [Scalar α]

def operandTasks (margin : Margin) (level : Nat) : List NodeId → List Task
  | [] => []
  | [x] => [.visit (margin.hang .last) level x]
  | x :: xs => .visit (margin.hang .inner) level x :: operandTasks margin level xs

def partialTasks (margin : Margin) (level : Nat) : List (NodeId × NodeId) → List Task
  | [] => []
  | [(x, var)] =>
    [.line (.derivative (margin.hang .last) var), .visit (margin.hang .lastPart) level x]
  | (x, var) :: xs =>
    .line (.derivative (margin.hang .inner) var) :: .visit (margin.hang .part) level x ::
      partialTasks margin level xs

def tasks (d : Dag α) (margin : Margin) (level : Nat) (id : NodeId) : List Task :=
  match d.node? id with
  | some ⟨.unary _, xs⟩ | some ⟨.binary _, xs⟩ => operandTasks margin level xs
  | some ⟨.gradient vars, primal :: partials⟩ =>
    .line (.primal (margin.hang .inner)) :: .visit (margin.hang .part) level primal ::
      partialTasks margin level (partials.zip vars)
  | _ => []

theorem count_set_level (levels : Array (Option Nat)) (level : Nat) {id : NodeId}
    (h : levels[id]? = some none) :
    (levels.setIfInBounds id (some level)).count none < levels.count none := by
  obtain ⟨hi, hn⟩ := Array.getElem?_eq_some_iff.1 h
  have hc : 0 < levels.count none := Array.count_pos_iff.2 (hn ▸ Array.getElem_mem hi)
  rw [Array.setIfInBounds, dif_pos hi, Array.count_set, if_pos (beq_iff_eq.2 hn),
    if_neg (by simp)]
  exact Nat.sub_lt hc Nat.one_pos

/-- Works off a list of tasks. `levels` holds the level at which each node was met first. -/
def run (d : Dag α) (levels : Array (Option Nat)) : List Task → List Entry
  | [] => []
  | .line entry :: rest => entry :: run d levels rest
  | .visit margin level id :: rest =>
    match _h : levels[id]? with
    | some none =>
      .node margin level id ::
        run d (levels.setIfInBounds id (some level)) (tasks d margin (level + 1) id ++ rest)
    | some (some first) => .again margin id first :: run d levels rest
    | none => run d levels rest
termination_by todo => (levels.count none, todo.length)
decreasing_by
  · exact Prod.Lex.right _ (by simp)
  · exact Prod.Lex.left _ _ (count_set_level levels level ‹_›)
  · exact Prod.Lex.right _ (by simp)
  · exact Prod.Lex.right _ (by simp)

end Outline

open Outline

variable {α : Type} [Scalar α]

def Dag.outline (d : Dag α) (root : NodeId) : List Entry :=
  run d (.replicate d.count none) [.visit ⟨"", .root⟩ 1 root]

variable [ScalarText α]

/-- How a node is called in an outline: a variable or a literal by itself, all else by number. -/
def Dag.outlineName (d : Dag α) (id : NodeId) : String :=
  match d.label? id with
  | some (.var name) => name
  | some (.lit value) => ScalarText.plain value
  | _ => s!"%{id}"

namespace Outline

def valueText (m : Memo α) (id : NodeId) : String :=
  match m.get? id with
  | some value => s!"[{ScalarText.places value}]"
  | none => "[?]"

def operandText (d : Dag α) (m : Memo α) (id : NodeId) : String :=
  d.outlineName id ++ valueText m id

def definitionText (d : Dag α) (m : Memo α) (id : NodeId) : String :=
  match d.node? id with
  | some ⟨.lit _, _⟩ => " -> Const"
  | some ⟨.var name, _⟩ => s!" -> Var({name})"
  | some ⟨.unary .neg, x :: _⟩ => s!" = -{operandText d m x}"
  | some ⟨.unary op, x :: _⟩ => s!" = {op.name}({operandText d m x})"
  | some ⟨.binary op, x :: y :: _⟩ =>
    s!" = {operandText d m x} {op.symbol} {operandText d m y}"
  | some ⟨.gradient _, _⟩ => " [GRADIENT]"
  | _ => ""

def Entry.text (d : Dag α) (m : Memo α) : Entry → String
  | .node margin level id =>
    s!"{margin.text}[L{level}] {operandText d m id}{definitionText d m id}"
  | .again margin id level => s!"{margin.text}-> {d.outlineName id} (Ref to L{level})"
  | .primal margin => s!"{margin.text} primal"
  | .derivative margin var => s!"{margin.text} d/d{d.outlineName var}"

end Outline

def Dag.outlineText (d : Dag α) (m : Memo α) (root : NodeId) : String :=
  let lines :=
    if d.contains root then
      s!"AUDIT TRACE for node {d.outlineName root}:" :: String.ofList (.replicate 50 '-') ::
        (d.outline root).map (Entry.text d m)
    else [s!"Error: Invalid Node ID {describe root}"]
  String.join (lines.map (· ++ "\n"))

end SharedExpr

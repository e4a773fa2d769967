import SharedExpr.Access.Table
import SharedExpr.Eval.Ledger
import SharedExpr.Print.Infix
import SharedExpr.Print.Outline

/-! Expressions and outlines as text, with every access to the table. -/
namespace SharedExpr.Access

variable {α : Type} [Scalar α] [ScalarText α]

/-- The expression under a node. An operand that is not older, for which the recursion might have
no end, counts as an access out of range. -/
def display (d : Dag α) (id : NodeId) : Access String := do
  let under (x : NodeId) : Access String := if x < id then display d x else none
  if d.contains id then
    let operands ← d.operandsAt id
    match ← d.labelAt id with
    | .lit value => return ScalarText.plain value
    | .var name => return name
    | .unary .neg =>
      let x ← under (← operands[0]?)
      return s!"-({x})"
    | .unary op =>
      let x ← under (← operands[0]?)
      return s!"({op.name}({x}))"
    | .binary op =>
      let x ← under (← operands[0]?)
      let y ← under (← operands[1]?)
      return s!"({x} {op.symbol} {y})"
    | .gradient _ =>
      let parts ← operands.mapM under
      return "\x7b" ++ ", ".intercalate parts ++ "\x7d"
  else return s!"<invalid {describe id}>"
termination_by id

open Outline

def outlineName (d : Dag α) (id : NodeId) : Access String := do
  match ← d.labelAt id with
  | .var name => return name
  | .lit value => return ScalarText.plain value
  | _ => return s!"%{id}"

def valueText (l : Ledger α) (id : NodeId) : String :=
  match l.get? id with
  | some value => s!"[{ScalarText.places value}]"
  | none => "[?]"

def operandText (d : Dag α) (l : Ledger α) (id : NodeId) : Access String :=
  (outlineName d id).map (· ++ valueText l id)

def definitionText (d : Dag α) (l : Ledger α) (id : NodeId) : Access String := do
  let operands ← d.operandsAt id
  match ← d.labelAt id with
  | .lit _ => return " -> Const"
  | .var name => return s!" -> Var({name})"
  | .unary .neg =>
    let x ← operandText d l (← operands[0]?)
    return s!" = -{x}"
  | .unary op =>
    let x ← operandText d l (← operands[0]?)
    return s!" = {op.name}({x})"
  | .binary op =>
    let x ← operandText d l (← operands[0]?)
    let y ← operandText d l (← operands[1]?)
    return s!" = {x} {op.symbol} {y}"
  | .gradient _ => return " [GRADIENT]"

def entryText (d : Dag α) (l : Ledger α) : Entry → Access String
  | .node margin level id => do
    let value ← operandText d l id
    let definition ← definitionText d l id
    return s!"{margin.text}[L{level}] {value}{definition}"
  | .again margin id level => do
    let name ← outlineName d id
    return s!"{margin.text}-> {name} (Ref to L{level})"
  | .primal margin => some s!"{margin.text} primal"
  | .derivative margin var => do
    let name ← outlineName d var
    return s!"{margin.text} d/d{name}"

/-- What hangs from a node; a gradient has to have a first part. -/
def tasks (d : Dag α) (margin : Margin) (level : Nat) (id : NodeId) : Access (List Task) := do
  let operands ← d.operandsAt id
  match ← d.labelAt id with
  | .lit _ | .var _ => return []
  | .unary _ | .binary _ => return operandTasks margin level operands
  | .gradient vars =>
    let primal ← operands[0]?
    return .line (.primal (margin.hang .inner)) :: .visit (margin.hang .part) level primal ::
      partialTasks margin level ((operands.drop 1).zip vars)

def outline (d : Dag α) (levels : Array (Option Nat)) : List Task → Access (List Entry)
  | [] => some []
  | .line entry :: rest => do
    let entries ← outline d levels rest
    return entry :: entries
  | .visit margin level id :: rest =>
    match _h : levels[id]? with
    | some none => do
      let hanging ← tasks d margin (level + 1) id
      let entries ← outline d (levels.setIfInBounds id (some level)) (hanging ++ rest)
      return .node margin level id :: entries
    | some (some first) => do
      let entries ← outline d levels rest
      return .again margin id first :: entries
    | none => none
termination_by todo => (levels.count none, todo.length)
decreasing_by
  · exact Prod.Lex.right _ (by simp)
  · exact Prod.Lex.left _ _ (count_set_level levels level ‹_›)
  · exact Prod.Lex.right _ (by simp)

def outlineText (d : Dag α) (l : Ledger α) (root : NodeId) : Access String := do
  if d.contains root then
    let name ← outlineName d root
    let entries ← outline d (.replicate d.count none) [.visit ⟨"", .root⟩ 1 root]
    let lines ← entries.mapM (entryText d l)
    return String.join <| (s!"AUDIT TRACE for node {name}:" :: String.ofList (.replicate 50 '-') ::
      lines).map (· ++ "\n")
  else return String.join [s!"Error: Invalid Node ID {describe root}" ++ "\n"]

end SharedExpr.Access

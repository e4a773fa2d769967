import SharedExpr.Code.Lowering

/-! Writing of code to a sink that takes a limited number of bytes. -/
namespace SharedExpr

namespace Sink

/-- The first bytes of a text. A character that is cut is shown as the replacement character. -/
def accepted : Nat → List Char → List Char
  | 0, _ => []
  | _, [] => []
  | capacity@(_ + 1), c :: cs =>
    if c.utf8Size ≤ capacity then c :: accepted (capacity - c.utf8Size) cs else ['\uFFFD']

def fullReason : String :=
  "failed to write whole buffer"

/-- What becomes of a text in a sink: the part accepted, and the fault if that is not all. -/
def write (capacity : Nat) (text : String) : String × Option Fault :=
  if text.utf8ByteSize ≤ capacity then (text, none)
  else (String.ofList (accepted capacity text.toList), some (.misuse (.sink fullReason)))

end Sink

/-- Writes the function that computes a node; nothing is written if there is none. -/
def Dag.writeCode {α : Type} [Scalar α] [ScalarText α] (d : Dag α) (root : NodeId)
    (options : CodeOptions) (capacity : Nat) : String × Option Fault :=
  match d.code root options with
  | .ok text => Sink.write capacity text
  | .error fault => ("", some fault)

end SharedExpr

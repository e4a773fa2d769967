import SharedExpr.Dag.Walk

/-! The nodes under a root as a drawing, and its text in the DOT language. -/
namespace SharedExpr

/-- A labelled directed graph. Vertices are numbered from zero in order. -/
structure Drawing where
  vertices : Array String
  edges : Array (Nat × Nat × Nat)

namespace Drawing

structure State where
  drawing : Drawing
  vertexOf : Std.HashMap NodeId Nat

variable {α : Type} [Scalar α] [ScalarText α]

def labelText : Label α → String
  | .lit value => ScalarText.plain value
  | .var name => name
  | .unary op => op.name
  | .binary op => op.symbol
  | .gradient _ => "gradient"

/-- Draws an edge from an operand, if that is drawn, to a vertex. -/
def State.connect (vertex : Nat) (s : State) (use : NodeId × Nat) : State :=
  match s.vertexOf[use.1]? with
  | some source =>
    { s with drawing := { s.drawing with edges := s.drawing.edges.push (source, vertex, use.2) } }
  | none => s

def State.add (d : Dag α) (s : State) (node : NodeId) : State :=
  let vertex := s.drawing.vertices.size
  let s : State :=
    ⟨⟨s.drawing.vertices.push ((d.label? node).elim "" labelText), s.drawing.edges⟩,
      s.vertexOf.insert node vertex⟩
  (d.operands node).zipIdx.foldl (State.connect vertex) s

def escape (c : Char) : List Char :=
  if c = '"' ∨ c = '\\' then ['\\', c] else if c = '\n' then ['\\', 'l'] else [c]

def quote (text : String) : String :=
  "\"" ++ String.ofList (text.toList.flatMap escape) ++ "\""

def text (g : Drawing) : String :=
  let vertices := g.vertices.toList.zipIdx.map fun (label, i) =>
    s!"    {i} [ label = {quote label} ]\n"
  let edges := g.edges.toList.map fun (source, target, position) =>
    s!"    {source} -> {target} [ label = {quote (toString position)} ]\n"
  "digraph \x7b\n" ++ String.join vertices ++ String.join edges ++ "\x7d\n"

end Drawing

/-- The nodes under a root, each after its operands, with an edge from each operand to its consumer
that is labelled by the position of the operand. -/
def Dag.drawing {α : Type} [Scalar α] [ScalarText α] (d : Dag α) (root : NodeId) : Drawing :=
  ((d.walk root).order.foldl (Drawing.State.add d) ⟨⟨#[], #[]⟩, ∅⟩).drawing

end SharedExpr

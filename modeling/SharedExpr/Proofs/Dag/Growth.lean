import SharedExpr.Proofs.Dag.NormalForm

/-! Growth of a graph by nodes that may be added to it, and what growth keeps. -/
namespace SharedExpr.Dag

variable {α : Type} [Scalar α] {d d' d'' : Dag α}

/-- The nodes that may be added to a graph: each kind has its number of operands, all of them
nodes, an operator is not applied to literals only, and the node is in normal form. -/
inductive Admits (d : Dag α) : Node α → Prop
  | lit {value : α} (h : Scalar.normal value = value) : Admits d ⟨.lit value, []⟩
  | var (name : String) : Admits d ⟨.var name, []⟩
  | unary (op : Unary) {x : NodeId} (hx : x < d.count) (hl : d.isLiteral x = false)
    (hn : d.Normal ⟨.unary op, [x]⟩) : Admits d ⟨.unary op, [x]⟩
  | binary (op : Binary) {x y : NodeId} (hx : x < d.count) (hy : y < d.count)
    (hl : d.isLiteral x = false ∨ d.isLiteral y = false) (hn : d.Normal ⟨.binary op, [x, y]⟩) :
    Admits d ⟨.binary op, [x, y]⟩
  | gradient {primal : NodeId} {partials vars : List NodeId} (hp : primal < d.count)
    (hps : ∀ x ∈ partials, x < d.count) (hvs : ∀ v ∈ vars, (d.name? v).isSome)
    (hlen : partials.length = vars.length) : Admits d ⟨.gradient vars, primal :: partials⟩

/-- Growth by interning, one admitted node after the other. -/
inductive Grows : Dag α → Dag α → Prop
  | refl (d : Dag α) : Grows d d
  | intern {d d' : Dag α} {node : Node α} (h : Grows d d') (hn : d'.Admits node) :
    Grows d (d'.intern node).2

/-- A table all of whose nodes were admitted. -/
structure Lawful (d : Dag α) : Prop where
  wellFormed : d.WellFormed
  admits : ∀ {id : NodeId} {node : Node α}, d.node? id = some node → d.Admits node

namespace Admits

variable {node : Node α}

theorem operand_lt (hn : d.Admits node) : ∀ x ∈ node.operands, x < d.count := by
  cases hn with
  | lit | var => simp
  | unary op hx _ _ => simpa using hx
  | binary op hx hy _ _ => simpa using ⟨hx, hy⟩
  | gradient hp hps _ _ => simpa using ⟨hp, hps⟩

theorem normal (hn : d.Admits node) : d.Normal node := by
  cases hn with
  | lit hv => exact .lit hv
  | var name => exact .var name
  | unary op _ _ hn => exact hn
  | binary op _ _ _ hn => exact hn
  | gradient _ _ hvs hlen => exact .gradient hvs hlen

theorem mono (h : Extends d d') (hw : d.WellFormed) (hn : d.Admits node) : d'.Admits node := by
  have hnormal := hn.normal.mono h hw hn.operand_lt
  cases hn with
  | lit hv => exact .lit hv
  | var name => exact .var name
  | unary op hx hl _ => exact .unary op (h.lt_count hx) ((h.isLiteral hx).trans hl) hnormal
  | binary op hx hy hl _ =>
    refine .binary op (h.lt_count hx) (h.lt_count hy) ?_ hnormal
    rwa [h.isLiteral hx, h.isLiteral hy]
  | gradient hp hps hvs hlen =>
    refine .gradient (h.lt_count hp) (fun x hx => h.lt_count (hps x hx)) (fun v hv => ?_) hlen
    rw [h.name? (lt_of_isSome_name? (hvs v hv))]
    exact hvs v hv

end Admits

namespace Lawful

theorem normal (h : d.Lawful) {id : NodeId} {node : Node α} (hn : d.node? id = some node) :
    d.Normal node :=
  (h.admits hn).normal

theorem intern (h : d.Lawful) {node : Node α} (hn : d.Admits node) : (d.intern node).2.Lawful where
  wellFormed := h.wellFormed.intern hn.operand_lt
  admits := by
    intro id n hid
    have he := extends_intern h.wellFormed node
    rcases node?_of_intern h.wellFormed hid with hold | rfl
    · exact (h.admits hold).mono he h.wellFormed
    · exact hn.mono he h.wellFormed

end Lawful

theorem lawful_empty : (empty : Dag α).Lawful where
  wellFormed := wellFormed_empty
  admits {id node} h := by simp [empty, Dag.node?, Dag.label?] at h

namespace Grows

theorem trans (h : Grows d d') (h' : Grows d' d'') : Grows d d'' := by
  induction h' with
  | refl => exact h
  | intern _ hn ih => exact ih.intern hn

theorem lawful (h : Grows d d') (hd : d.Lawful) : d'.Lawful := by
  induction h with
  | refl => exact hd
  | intern _ hn ih => exact ih.intern hn

theorem extends_ (h : Grows d d') (hd : d.Lawful) : Extends d d' := by
  induction h with
  | refl => exact .refl d
  | intern h hn ih => exact ih.trans (extends_intern (h.lawful hd).wellFormed _)

end Grows

end SharedExpr.Dag

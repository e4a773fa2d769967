import SharedExpr.Proofs.Dag.Extension

/-! The normal form of nodes. -/
namespace SharedExpr.Dag

variable {α : Type} [Scalar α] {d d' : Dag α}

/-- A node `a op b` whose left operand is a literal. -/
def Prefixed (d : Dag α) (op : Binary) (id a b : NodeId) : Prop :=
  d.node? id = some ⟨.binary op, [a, b]⟩ ∧ d.isLiteral a

/-- The operands of a sum or of a product: a literal stands on the left, else the older node does,
and neither is itself such a node with a literal on its left. -/
structure Ordered (d : Dag α) (op : Binary) (x y : NodeId) : Prop where
  right_not_literal : d.isLiteral y = false
  ne : x ≠ y
  lt : d.isLiteral x = false → x < y
  left_not_prefixed : ∀ a b, ¬ d.Prefixed op x a b
  right_not_prefixed : ∀ a b, ¬ d.Prefixed op y a b

inductive Normal (d : Dag α) : Node α → Prop
  | lit {value : α} (h : Scalar.normal value = value) : Normal d ⟨.lit value, []⟩
  | var (name : String) : Normal d ⟨.var name, []⟩
  | neg {x : NodeId} (hl : d.isLiteral x = false) (hn : d.label? x ≠ some (.unary .neg)) :
    Normal d ⟨.unary .neg, [x]⟩
  | transcendental {op : Unary} {x : NodeId} (hop : op ≠ .neg) (hl : d.isLiteral x = false) :
    Normal d ⟨.unary op, [x]⟩
  | add {x y : NodeId} (h : d.Ordered .add x y) (hzero : d.hasValue x Scalar.zero = false)
    (hx : d.label? x ≠ some (.unary .neg)) (hy : d.label? y ≠ some (.unary .neg)) :
    Normal d ⟨.binary .add, [x, y]⟩
  | mul {x y : NodeId} (h : d.Ordered .mul x y) (hzero : d.hasValue x Scalar.zero = false)
    (hone : d.hasValue x Scalar.one = false) (hminus : d.hasValue x Scalar.minusOne = false) :
    Normal d ⟨.binary .mul, [x, y]⟩
  | sub {x y : NodeId} (hne : x ≠ y) (hzero : d.hasValue x Scalar.zero = false)
    (hl : d.isLiteral y = false) (hy : d.label? y ≠ some (.unary .neg)) :
    Normal d ⟨.binary .sub, [x, y]⟩
  | div {x y : NodeId} (hl : d.isLiteral x = false ∨ d.isLiteral y = false) (hne : x ≠ y)
    (hzero : d.hasValue x Scalar.zero = false) : Normal d ⟨.binary .div, [x, y]⟩
  | pow {x y : NodeId} (hl : d.isLiteral x = false ∨ d.isLiteral y = false)
    (hzero : d.hasValue y Scalar.zero = false) (hone : d.hasValue y Scalar.one = false) :
    Normal d ⟨.binary .pow, [x, y]⟩
  | gradient {primal : NodeId} {partials vars : List NodeId} (hvs : ∀ v ∈ vars, (d.name? v).isSome)
    (hlen : partials.length = vars.length) : Normal d ⟨.gradient vars, primal :: partials⟩

namespace Extends

/-- Whether a node has a literal on its left is settled when the node is there. -/
theorem prefixed_iff (h : Extends d d') (hw : d.WellFormed) {id : NodeId} (hid : id < d.count)
    {op : Binary} {a b : NodeId} : d'.Prefixed op id a b ↔ d.Prefixed op id a b := by
  rw [Prefixed, Prefixed, h.node? hid]
  refine and_congr_right fun hn => ?_
  rw [h.isLiteral (hw.lt_of_mem_operands hn (by simp))]

end Extends

theorem Ordered.mono (h : Extends d d') (hw : d.WellFormed) {op : Binary} {x y : NodeId}
    (hx : x < d.count) (hy : y < d.count) (ho : d.Ordered op x y) : d'.Ordered op x y where
  right_not_literal := (h.isLiteral hy).trans ho.right_not_literal
  ne := ho.ne
  lt hl := ho.lt ((h.isLiteral hx).symm.trans hl)
  left_not_prefixed a b hp := ho.left_not_prefixed a b ((h.prefixed_iff hw hx).1 hp)
  right_not_prefixed a b hp := ho.right_not_prefixed a b ((h.prefixed_iff hw hy).1 hp)

theorem Normal.mono (h : Extends d d') (hw : d.WellFormed) {node : Node α}
    (hx : ∀ x ∈ node.operands, x < d.count) (hn : d.Normal node) : d'.Normal node := by
  cases hn with
  | lit hv => exact .lit hv
  | var name => exact .var name
  | @neg x hl hn =>
    have hlt := hx x (by simp)
    exact .neg ((h.isLiteral hlt).trans hl) (h.label? hlt ▸ hn)
  | @transcendental op x hop hl =>
    exact .transcendental hop ((h.isLiteral (hx x (by simp))).trans hl)
  | @add x y ho hzero hnx hny =>
    have hlx := hx x (by simp)
    have hly := hx y (by simp)
    exact .add (ho.mono h hw hlx hly) ((h.hasValue hlx _).trans hzero) (h.label? hlx ▸ hnx)
      (h.label? hly ▸ hny)
  | @mul x y ho hzero hone hminus =>
    have hlx := hx x (by simp)
    exact .mul (ho.mono h hw hlx (hx y (by simp))) ((h.hasValue hlx _).trans hzero)
      ((h.hasValue hlx _).trans hone) ((h.hasValue hlx _).trans hminus)
  | @sub x y hne hzero hl hn =>
    have hly := hx y (by simp)
    exact .sub hne ((h.hasValue (hx x (by simp)) _).trans hzero) ((h.isLiteral hly).trans hl)
      (h.label? hly ▸ hn)
  | @div x y hl hne hzero =>
    have hlx := hx x (by simp)
    refine .div ?_ hne ((h.hasValue hlx _).trans hzero)
    rwa [h.isLiteral hlx, h.isLiteral (hx y (by simp))]
  | @pow x y hl hzero hone =>
    have hly := hx y (by simp)
    refine .pow ?_ ((h.hasValue hly _).trans hzero) ((h.hasValue hly _).trans hone)
    rwa [h.isLiteral (hx x (by simp)), h.isLiteral hly]
  | gradient hvs hlen =>
    refine .gradient (fun v hv => ?_) hlen
    rw [h.name? (lt_of_isSome_name? (hvs v hv))]
    exact hvs v hv

end SharedExpr.Dag

import Mathlib.Algebra.BigOperators.Group.List.Basic
import SharedExpr.Proofs.Dag.Search
import SharedExpr.Proofs.Expr.Simplification

/-! Formal derivatives of nodes, and the derivatives along single operands that they consist of. -/
namespace SharedExpr

variable {K : Type} [Field K] [ExactScalar K]

def Unary.slope (op : Unary) (x dx : K) : K :=
  match op with
  | .neg => -dx
  | .exp => Scalar.unary .exp x * dx
  | .log => 1 / x * dx
  | .sin => Scalar.unary .cos x * dx
  | .cos => -Scalar.unary .sin x * dx

/-- The derivative of an operator from its operands and their derivatives; of a power, for an
exponent that is a literal. -/
def Binary.slope (op : Binary) (x y dx dy : K) : K :=
  match op with
  | .add => dx + dy
  | .sub => dx - dy
  | .mul => dx * y + x * dy
  | .div => (dx * y - x * dy) / (y * y)
  | .pow => y * Scalar.binary .pow x (y - 1) * dx

/-- The derivative of a node from the values and the derivatives of its operands. Gradients have
none. -/
def Label.slope (isVar : Bool) : Label K → List K → List K → K
  | .var _, _, _ => if isVar then 1 else 0
  | .unary op, x :: _, dx :: _ => op.slope x dx
  | .binary op, x :: y :: _, dx :: dy :: _ => op.slope x y dx dy
  | _, _, _ => 0

namespace Dag

variable {d d' : Dag K} {ρ : String → K}

/-- The derivative of a node with respect to a variable, by recursion on the expression under the
node as a tree. -/
def slope (d : Dag K) (ρ : String → K) (v : NodeId) (id : NodeId) : K :=
  d.unfold (fun _ => 0) (fun id label => label.slope (id = v) ((d.operands id).map (d.denote ρ))) id

theorem slope_eq (hw : d.WellFormed) (ρ : String → K) (v : NodeId) {id : NodeId} {node : Node K}
    (hn : d.node? id = some node) :
    d.slope ρ v id = node.label.slope (id = v) (node.operands.map (d.denote ρ))
      (node.operands.map (d.slope ρ v)) := by
  have hx : ∀ x ∈ node.operands, x < id := by
    rw [← operands_of_node? hn]
    exact hw.operands_lt id
  have h := d.unfold_eq (fun _ => 0)
    (fun id label => label.slope (id = v) ((d.operands id).map (d.denote ρ))) hn hx
  rw [operands_of_node? hn] at h
  exact h

/-- The derivative of the consumer of a use along the operand that is used. -/
def partialAt (d : Dag K) (ρ : String → K) (use : Use) : K :=
  match d.node? use.consumer with
  | some ⟨.unary op, [x]⟩ => op.slope (d.denote ρ x) 1
  | some ⟨.binary op, [x, y]⟩ =>
    if use.position = 0 then op.slope (d.denote ρ x) (d.denote ρ y) 1 0
    else op.slope (d.denote ρ x) (d.denote ρ y) 0 1
  | _ => 0

end Dag

theorem Unary.slope_eq_mul (op : Unary) (x dx : K) : op.slope x dx = op.slope x 1 * dx := by
  cases op <;> simp [slope]

theorem Binary.slope_eq_add (op : Binary) (x y dx dy : K) :
    op.slope x y dx dy = op.slope x y 1 0 * dx + op.slope x y 0 1 * dy := by
  cases op <;> simp only [slope] <;> ring

namespace Dag

variable {d d' : Dag K} {ρ : String → K}

/-- A node has the derivatives of its operands, each times the derivative of the node along it. -/
theorem slope_eq_sum (h : d.Lawful) {v : NodeId} (hv : (d.name? v).isSome) {id : NodeId}
    (hid : id < d.count) :
    d.slope ρ v id = (if id = v then 1 else 0) +
      ((Walk.slots d id).map fun slot => d.partialAt ρ slot.2 * d.slope ρ v slot.1).sum := by
  obtain ⟨⟨label, operands⟩, hn⟩ := exists_node? hid
  have hne : ∀ {l : Label K}, label = l → l.name? = none → id ≠ v := by
    rintro l rfl hl rfl
    simp [name?, label?_of_node? hn, hl] at hv
  rw [slope_eq h.wellFormed ρ v hn, Walk.slots, operands_of_node? hn]
  cases h.admits hn with
  | lit => simp [Label.slope, hne rfl rfl]
  | var => simp [Label.slope]
  | unary op =>
    simp [Label.slope, hne rfl rfl, partialAt, hn, op.slope_eq_mul _ (d.slope ρ v _)]
  | binary op =>
    simp [Label.slope, hne rfl rfl, partialAt, hn, op.slope_eq_add _ _ (d.slope ρ v _)]
  | gradient =>
    have hzero : ∀ position, d.partialAt ρ ⟨id, position⟩ = 0 := by
      intro position
      rw [partialAt, hn]
    simp [Label.slope, hne rfl rfl, hzero, List.map_map, Function.comp_def]

theorem partialAt_grows (hg : d.Grows d') (h : d.Lawful) {use : Use} (hc : use.consumer < d.count) :
    d'.partialAt ρ use = d.partialAt ρ use := by
  obtain ⟨⟨label, operands⟩, hn⟩ := exists_node? hc
  rw [partialAt, partialAt, (hg.extends_ h).node? hc, hn]
  cases h.admits hn with
  | lit | var => rfl
  | unary op hx => simp only [hg.denote h ρ hx]
  | binary op hx hy => simp only [hg.denote h ρ hx, hg.denote h ρ hy]
  | gradient => rfl

end Dag

theorem operandSeeds_value {d d₁ : Dag K} (h : d.Lawful) (ρ : String → K) {first : Bool}
    {dx dy : NodeId} (hs : operandSeeds first d = ((dx, dy), d₁)) :
    d₁.denote ρ dx = (if first then 1 else 0) ∧ d₁.denote ρ dy = if first then 0 else 1 := by
  have hlit : ∀ (d : Dag K) (value : K), d.Lawful →
      (Build.lit value d).2.denote ρ (Build.lit value d).1 = value := by
    intro d value h
    have hn : d.Admits ⟨.lit (Scalar.normal value), []⟩ := .lit (Dag.normal_normal value)
    exact (Dag.denote_intern h hn ρ).trans (ExactScalar.normal_eq value)
  have hboth : ∀ a b : K,
      (Build.lit b (Build.lit a d).2).2.denote ρ (Build.lit a d).1 = a ∧
      (Build.lit b (Build.lit a d).2).2.denote ρ (Build.lit b (Build.lit a d).2).1 = b := by
    intro a b
    have ha := Dag.adds_lit h a
    have h₁ := ha.grows.lawful h
    have hb := Dag.adds_lit h₁ b
    exact ⟨(hb.grows.denote h₁ ρ (ha.lt _ rfl)).trans (hlit d a h), hlit _ b h₁⟩
  cases first with
  | true =>
    obtain ⟨hx, hy⟩ := hboth Scalar.one Scalar.zero
    cases hs
    exact ⟨hx.trans ExactScalar.one_eq, hy.trans ExactScalar.zero_eq⟩
  | false =>
    obtain ⟨hx, hy⟩ := hboth Scalar.zero Scalar.one
    cases hs
    exact ⟨hx.trans ExactScalar.zero_eq, hy.trans ExactScalar.one_eq⟩

theorem Unary.value_derivative {d : Dag K} (hw : d.WellFormed) {ρ : String → K} {op : Unary}
    {id x : NodeId} (hn : d.node? id = some ⟨.unary op, [x]⟩) :
    (op.derivative id x : Expr K).value d ρ = op.slope (d.denote ρ x) 1 := by
  cases op with
  | exp =>
    have hid : d.denote ρ id = Scalar.unary .exp (d.denote ρ x) := Dag.denote_eq hw ρ hn
    simp [derivative, slope, Expr.value, hid]
  | neg | log | sin | cos => simp [derivative, slope, Expr.value]

theorem Unary.regular_derivative {d : Dag K} {ρ : String → K} (op : Unary) (id x : NodeId) :
    (op.derivative id x : Expr K).Regular d ρ := by
  cases op <;> simp [derivative, Expr.Regular, Expr.value]

theorem Binary.value_derivative {d : Dag K} {ρ : String → K} {op : Binary} {literalExponent : Bool}
    {x y dx dy : NodeId} {first : Bool} {e : Expr K}
    (he : op.derivative? literalExponent x y dx dy first = some e)
    (hdx : d.denote ρ dx = if first then 1 else 0) (hdy : d.denote ρ dy = if first then 0 else 1) :
    e.value d ρ = if first then op.slope (d.denote ρ x) (d.denote ρ y) 1 0
      else op.slope (d.denote ρ x) (d.denote ρ y) 0 1 := by
  cases op with
  | add | sub | mul | div =>
    obtain rfl := Option.some.inj he
    cases first <;> simp [slope, Expr.value, hdx, hdy]
  | pow =>
    rw [derivative?] at he
    split at he
    · next hf =>
      obtain rfl := Option.some.inj he
      simp [slope, Expr.value, hf]
    · next hf =>
      obtain ⟨-, ⟨⟩⟩ := Option.ite_none_right_eq_some.1 he
      simp [slope, Expr.value, hf]

theorem Binary.regular_derivative {d : Dag K} {ρ : String → K} {op : Binary}
    {literalExponent : Bool} {x y dx dy : NodeId} {first : Bool} {e : Expr K}
    (he : op.derivative? literalExponent x y dx dy first = some e)
    (hy : op = .div → d.denote ρ y ≠ 0) : e.Regular d ρ := by
  cases op with
  | add | sub | mul =>
    obtain rfl := Option.some.inj he
    simp [Expr.Regular]
  | div =>
    obtain rfl := Option.some.inj he
    simp [Expr.Regular, Expr.value, hy rfl]
  | pow =>
    rw [derivative?] at he
    split at he
    · obtain rfl := Option.some.inj he
      simp [Expr.Regular]
    · obtain ⟨-, ⟨⟩⟩ := Option.ite_none_right_eq_some.1 he
      trivial

theorem derivative_value {d d' : Dag K} (h : d.Lawful) {ρ : String → K} {use : Use} {slope : NodeId}
    (hs : derivative use.consumer use.position d = (.ok slope, d'))
    (hdiv : ∀ x y, d.node? use.consumer = some ⟨.binary .div, [x, y]⟩ → d.denote ρ y ≠ 0) :
    d'.denote ρ slope = d.partialAt ρ use := by
  obtain ⟨e, d₁, hd, hb⟩ := derivative_eq_ok h hs
  have hg := hd.grows h
  have hrefs := hd.refs_lt h
  have hvalue : e.Regular d₁ ρ → d'.denote ρ slope = e.value d₁ ρ := by
    intro hr
    have hv := Expr.value_build (hg.lawful h) hrefs hr
    rwa [hb] at hv
  cases hd with
  | unary hn =>
    rw [hvalue (Unary.regular_derivative _ _ _), Unary.value_derivative h.wellFormed hn,
      Dag.partialAt, hn]
  | @binary op x y dx dy _ _ hn hseeds he =>
    obtain ⟨hdx, hdy⟩ := operandSeeds_value h ρ hseeds
    have hx : ∀ z ∈ [x, y], d₁.denote ρ z = d.denote ρ z := fun z hz =>
      hg.denote h ρ (h.wellFormed.lt_of_mem_operands hn hz)
    have hvx := hx x (by simp)
    have hvy := hx y (by simp)
    have hreg : e.Regular d₁ ρ := by
      refine Binary.regular_derivative he fun hop => ?_
      rw [hvy]
      exact hdiv x y (hop ▸ hn)
    rw [hvalue hreg, Binary.value_derivative he hdx hdy, hvx, hvy, Dag.partialAt, hn]
    simp

end SharedExpr

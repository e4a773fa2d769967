import Mathlib
import SharedExpr.Proofs.Expr.Unfolding
import SharedExpr.Proofs.Replay

/-! Negation, and the sums and differences that come to the same node by way of it. -/
namespace SharedExpr

variable {α : Type} [Scalar α] {d e : Dag α} {x y n : NodeId}

/-- A number negated twice is the number again, each time as it is stored. -/
def Scalar.NegCancels (α : Type) [Scalar α] : Prop :=
  ∀ a : α, normal a = a → normal (unary .neg (normal (unary .neg a))) = a

namespace Dag

theorem literal?_eq_none (h : d.isLiteral x = false) : d.literal? x = none := by
  simpa [isLiteral] using h

theorem hasValue_eq_false (h : d.isLiteral x = false) (value : α) : d.hasValue x value = false := by
  rw [Bool.eq_false_iff]
  intro hv
  obtain ⟨a, ha, -⟩ := hasValue_iff.1 hv
  simp [isLiteral, ha] at h

theorem isLiteral_of_hasValue {value : α} (h : d.hasValue x value) : d.isLiteral x := by
  obtain ⟨a, ha, -⟩ := hasValue_iff.1 h
  simp [isLiteral, ha]

/-- A negation is no literal, and younger than what it negates. -/
theorem Lawful.negation (h : d.Lawful) {a : NodeId} (hx : d.negated? x = some a) :
    x < d.count ∧ d.isLiteral x = false ∧ a < x := by
  obtain ⟨rest, hn⟩ := negated?_eq_some hx
  exact ⟨lt_of_node? hn, isLiteral_eq_false_of_node? hn rfl,
    h.wellFormed.operands_lt x a (by simp [operands_of_node? hn])⟩

/-- `n` is what the negation of `y` answers: the literal of the other sign, what `y` negates, or the
negation of `y`. -/
inductive Opposite (d : Dag α) (y n : NodeId) : Prop
  | literal {m : α} (hy : d.literal? y = some m)
    (hn : d.literal? n = some (Scalar.normal (Scalar.unary .neg m)))
  | operand (hy : d.negated? y = some n)
  | negation (hn : d.negated? n = some y)

namespace Opposite

theorem symm (hneg : Scalar.NegCancels α) (h : d.Lawful) (ho : d.Opposite y n) :
    d.Opposite n y := by
  cases ho with
  | @literal m hy hn => exact .literal hn (by rw [hneg m (node?_of_literal? h hy).2, hy])
  | operand hy => exact .negation hy
  | negation hn => exact .operand hn

theorem mono (he : d.Extends e) (hy : y < d.count) (hn : n < d.count) (ho : d.Opposite y n) :
    e.Opposite y n := by
  cases ho with
  | literal hly hln => exact .literal ((he.literal? hy).trans hly) ((he.literal? hn).trans hln)
  | operand h => exact .operand ((he.negated? hy).trans h)
  | negation h => exact .negation ((he.negated? hn).trans h)

theorem isLiteral_eq (h : d.Lawful) (ho : d.Opposite y n) : d.isLiteral n = d.isLiteral y := by
  cases ho with
  | literal hy hn => simp [isLiteral, hy, hn]
  | operand hy => rw [(h.negation hy).2.1, (h.operand_of_negated? hy).2.1]
  | negation hn => rw [(h.negation hn).2.1, (h.operand_of_negated? hn).2.1]

end Opposite

theorem literal?_lit (h : d.Lawful) (value : α) :
    (Build.lit value d).2.literal? (Build.lit value d).1 = some (Scalar.normal value) := by
  have hn : (Build.lit value d).2.node? (Build.lit value d).1 = some ⟨.lit _, []⟩ :=
    node?_intern h.wellFormed _
  simp [literal?, label?_of_node? hn, Label.literal?]

theorem lit_eq (h : d.Lawful) {a : α} (hx : d.literal? x = some (Scalar.normal a)) :
    Build.lit a d = (x, d) :=
  intern_of_node? h.wellFormed (node?_of_literal? h hx).1

end Dag

namespace Application

theorem build_neg_literal (h : d.Lawful) {m : α} (hy : d.literal? y = some m) :
    (unary .neg y).build d = Build.lit (Scalar.unary .neg m) d := by
  have hlt : y < d.count := Dag.lt_of_node? (Dag.node?_of_literal? h hy).1
  refine build_of_replacement? (e := .lit (Scalar.unary .neg m)) h (operand_lt .neg hlt) ?_
  simp [arrange, replacement?, UnaryRule.all, UnaryRule.fold, hy]

theorem build_neg_negation (h : d.Lawful) (hy : d.negated? y = some n) :
    (unary .neg y).build d = (n, d) := by
  obtain ⟨hlt, hl, -⟩ := h.negation hy
  refine build_of_replacement? (e := .ref n) h (operand_lt .neg hlt) ?_
  simp [arrange, replacement?, UnaryRule.all, UnaryRule.fold, UnaryRule.cancel, hy,
    Dag.literal?_eq_none hl]

theorem build_neg_node (h : d.Lawful) (hlt : y < d.count) (hl : d.isLiteral y = false)
    (hy : d.negated? y = none) : (unary .neg y).build d = d.intern ⟨.unary .neg, [y]⟩ := by
  refine build_of_replacement?_none h (operand_lt .neg hlt) ?_
  simp [arrange, replacement?, UnaryRule.all, UnaryRule.fold, UnaryRule.cancel, hy,
    Dag.literal?_eq_none hl]

theorem build_neg (h : d.Lawful) (ho : d.Opposite y n) : (unary .neg y).build d = (n, d) := by
  cases ho with
  | literal hy hn => exact (build_neg_literal h hy).trans (Dag.lit_eq h hn)
  | operand hy => exact build_neg_negation h hy
  | negation hn =>
    obtain ⟨hlt, hl, hy⟩ := h.operand_of_negated? hn
    obtain ⟨rest, hnode⟩ := Dag.negated?_eq_some hn
    rw [build_neg_node h hlt hl hy]
    cases h.admits hnode with
    | unary => exact Dag.intern_of_node? h.wellFormed hnode

theorem opposite_build (h : d.Lawful) (hlt : y < d.count) :
    ((unary .neg y).build d).2.Opposite y ((unary .neg y).build d).1 := by
  cases hy : d.literal? y with
  | some m =>
    have hn : (Build.lit (Scalar.unary .neg m) d).2.node?
        (Build.lit (Scalar.unary .neg m) d).1 = some ⟨.lit _, []⟩ :=
      Dag.node?_intern h.wellFormed _
    have he := (Dag.adds_lit h (Scalar.unary .neg m)).grows.extends_ h
    rw [build_neg_literal h hy]
    exact .literal ((he.literal? hlt).trans hy)
      (by simp [Dag.literal?, Dag.label?_of_node? hn, Label.literal?])
  | none =>
    cases hneg : d.negated? y with
    | some a =>
      rw [build_neg_negation h hneg]
      exact .operand hneg
    | none =>
      have hn := Dag.node?_intern h.wellFormed ⟨.unary .neg, [y]⟩
      rw [build_neg_node h hlt (by simp [Dag.isLiteral, hy]) hneg]
      exact .negation (by simp only [Dag.negated?, hn])

/-- A node and its negation add up to zero. -/
theorem build_add_negation (h : d.Lawful) (hy : d.negated? y = some x) :
    (binary .add x y).build d = Build.zero d := by
  obtain ⟨hly, hy', hlt⟩ := h.negation hy
  obtain ⟨hlx, hx', hx⟩ := h.operand_of_negated? hy
  -- The node is older than its negation, so that they are not swapped.
  have ha : (binary .add x y).arrange d = .binary .add x y :=
    arrange_of_not_swaps (by simp [swaps, hx', hy', Nat.le_of_lt hlt])
  refine build_of_replacement? (e := .lit Scalar.zero) h (operands_lt hlx hly) ?_
  rw [ha]
  simp [replacement?, BinaryRule.all, BinaryRule.fold, BinaryRule.zeroPlus, BinaryRule.double,
    BinaryRule.negPlus, BinaryRule.plusNeg, Dag.literal?_eq_none hx', Dag.hasValue_eq_false hx',
    Nat.ne_of_lt hlt, hx, hy]

theorem build_sub_self (h : d.Lawful) (hlx : x < d.count) (hx : d.isLiteral x = false) :
    (binary .sub x x).build d = Build.zero d := by
  refine build_of_replacement? (e := .lit Scalar.zero) h (operands_lt hlx hlx) ?_
  rw [arrange_of_not_commutes rfl]
  simp [replacement?, BinaryRule.all, BinaryRule.fold, BinaryRule.minusSelf,
    Dag.literal?_eq_none hx]

section Difference

variable (h : d.Lawful) (hlx : x < d.count) (hly : y < d.count)
include h hlx hly

theorem build_sub_literal (hx : d.isLiteral x = false) {m : α} (hy : d.literal? y = some m) :
    (binary .sub x y).build d =
      (Expr.binary .add (.ref x) (.lit (Scalar.unary .neg m))).build d := by
  have hne : x ≠ y := fun he => by simp [Dag.isLiteral, he, hy] at hx
  refine build_of_replacement? h (operands_lt hlx hly) ?_
  rw [arrange_of_not_commutes rfl]
  simp [replacement?, BinaryRule.all, BinaryRule.fold, BinaryRule.minusSelf, BinaryRule.zeroMinus,
    BinaryRule.minusLiteral, Dag.literal?_eq_none hx, Dag.hasValue_eq_false hx, hne, hy]

theorem build_zero_sub (hx : d.hasValue x Scalar.zero) (hy : d.isLiteral y = false) :
    (binary .sub x y).build d = (unary .neg y).build d := by
  have hne : x ≠ y := fun he => by simp [Dag.isLiteral_of_hasValue (he ▸ hx)] at hy
  refine build_of_replacement? (e := .unary .neg (.ref y)) h (operands_lt hlx hly) ?_
  rw [arrange_of_not_commutes rfl]
  simp [replacement?, BinaryRule.all, BinaryRule.fold, BinaryRule.minusSelf, BinaryRule.zeroMinus,
    Dag.literal?_eq_none hy, hne, hx]

theorem build_zero_add (hx : d.hasValue x Scalar.zero) (hy : d.isLiteral y = false) :
    (binary .add x y).build d = (y, d) := by
  have ha : (binary .add x y).arrange d = .binary .add x y :=
    arrange_of_not_swaps (by simp [swaps, Dag.isLiteral_of_hasValue hx])
  refine build_of_replacement? (e := .ref y) h (operands_lt hlx hly) ?_
  rw [ha]
  simp [replacement?, BinaryRule.all, BinaryRule.fold, BinaryRule.zeroPlus,
    Dag.literal?_eq_none hy, hx]

theorem build_sub_negation (hx : d.hasValue x Scalar.zero = false) (hneg : d.negated? x = none)
    (hy : d.negated? y = some n) :
    (binary .sub x y).build d = (binary .add x n).build d := by
  have hne : x ≠ y := fun he => by simp [he, hy] at hneg
  refine build_of_replacement? (e := .binary .add (.ref x) (.ref n)) h (operands_lt hlx hly) ?_
  rw [arrange_of_not_commutes rfl]
  simp [replacement?, BinaryRule.all, BinaryRule.fold, BinaryRule.minusSelf, BinaryRule.zeroMinus,
    BinaryRule.minusLiteral, BinaryRule.minusNeg, Dag.literal?_eq_none (h.negation hy).2.1, hne, hx,
    hy]

/-- A sum with a negation is a difference, whichever of the two is older. -/
theorem build_add_of_negated? (hx : d.hasValue x Scalar.zero = false)
    (hneg : d.negated? x = none) (hy : d.negated? y = some n) (hne : n ≠ x) :
    (binary .add x y).build d = (binary .sub x n).build d := by
  have hxy : x ≠ y := fun he => by simp [he, hy] at hneg
  obtain ⟨-, hl, -⟩ := h.negation hy
  refine build_of_replacement? (e := .binary .sub (.ref x) (.ref n)) h (operands_lt hlx hly) ?_
  rcases arrange_cases d .add x y with ha | ha
  · rw [ha]
    simp [replacement?, BinaryRule.all, BinaryRule.fold, BinaryRule.zeroPlus, BinaryRule.double,
      BinaryRule.negPlus, BinaryRule.plusNeg, Dag.literal?_eq_none hl, hx, hneg, hy, hxy, hne]
  · rw [ha]
    simp [replacement?, BinaryRule.all, BinaryRule.fold, BinaryRule.zeroPlus, BinaryRule.double,
      BinaryRule.negPlus, Dag.literal?_eq_none hl, Dag.hasValue_eq_false hl, hy, Ne.symm hxy, hne]

/-- A difference is the sum with the opposite of what is subtracted. -/
theorem build_sub_eq_add (hln : n < d.count) (hneg : d.negated? x = none)
    (hl : ¬ (d.isLiteral x ∧ d.isLiteral y)) (ho : d.Opposite y n) :
    (binary .sub x y).build d = (binary .add x n).build d := by
  cases hzero : d.hasValue x Scalar.zero with
  | true =>
    have hy : d.isLiteral y = false := by simpa [Dag.isLiteral_of_hasValue hzero] using hl
    have hn : d.isLiteral n = false := (ho.isLiteral_eq h).trans hy
    rw [build_zero_sub h hlx hly hzero hy, build_neg h ho, build_zero_add h hlx hln hzero hn]
  | false =>
    cases ho with
    | @literal m hy hn =>
      have hx : d.isLiteral x = false := by simpa [Dag.isLiteral, hy] using hl
      have hlit := Dag.lit_eq h hn
      rw [build_sub_literal h hlx hly hx hy]
      show (binary .add x (Build.lit _ d).1).build (Build.lit _ d).2 = _
      rw [hlit]
    | operand hy => exact build_sub_negation h hlx hly hzero hneg hy
    | negation hn =>
      by_cases hyx : y = x
      · subst hyx
        rw [build_sub_self h hly (h.operand_of_negated? hn).2.1, build_add_negation h hn]
      · exact (build_add_of_negated? h hlx hln hzero hneg hn hyx).symm

/-- A node and its opposite add up to zero, unless they are literals. -/
theorem build_add_opposite (hl : d.isLiteral x = false) (ho : d.Opposite x y) :
    (binary .add x y).build d = Build.zero d ∧ (binary .add y x).build d = Build.zero d := by
  have hswap : (binary .add y x).build d = (binary .add x y).build d :=
    build_swap h rfl hlx hly fun hc => by simp [hl] at hc
  cases ho with
  | literal hx => simp [Dag.isLiteral, hx] at hl
  | operand hx =>
    have hzero := build_add_negation h hx
    exact ⟨hswap.symm.trans hzero, hzero⟩
  | negation hy =>
    have hzero := build_add_negation h hy
    exact ⟨hzero, hswap.trans hzero⟩

end Difference

end Application

namespace Dag

/-- From this graph on the application answers the node, and adds nothing. -/
def Settles (d : Dag α) (app : Application) (id : NodeId) : Prop :=
  ∀ e, d.Becomes e → app.build e = (id, e)

/-- Whatever the graph becomes, the applications do the same in it: they answer one node, and
whichever of them is first, the others find that node later on. -/
def Coincide (d : Dag α) (apps : List Application) : Prop :=
  ∀ e, d.Becomes e → ∃ id e', ∀ app ∈ apps, app.build e = (id, e') ∧ e'.Settles app id

theorem Lawful.settles_build (h : d.Lawful) {app : Application}
    (hx : ∀ x ∈ app.operands, x < d.count) : (app.build d).2.Settles app (app.build d).1 := by
  intro e hbecomes
  have hd := (Application.adds_build h hx).grows.lawful h
  have hg := hbecomes.grows hd
  exact Application.replays_build h hx e (hg.extends_ hd) (hg.lawful hd)

/-- Applications that are built alike from some graph on coincide. -/
theorem Lawful.coincide (h : d.Lawful) {first : Application} {apps : List Application}
    (hx : ∀ x ∈ first.operands, x < d.count)
    (heq : ∀ e, d.Extends e → e.Lawful → ∀ app ∈ apps, app.build e = first.build e) :
    d.Coincide apps := by
  intro e hbecomes
  have hg := hbecomes.grows h
  have he := hg.extends_ h
  have hl := hg.lawful h
  have hxe : ∀ x ∈ first.operands, x < e.count := fun x hm => he.lt_count (hx x hm)
  refine ⟨_, _, fun app hm => ⟨heq e he hl app hm, fun e' hbecomes' => ?_⟩⟩
  have hadds := (Application.adds_build hl hxe).grows
  have hg' := hbecomes'.grows (hadds.lawful hl)
  have he' := he.trans ((hadds.trans hg').extends_ hl)
  rw [heq e' he' ((hadds.trans hg').lawful hl) app hm]
  exact hl.settles_build hxe e' hbecomes'

/-- Two nodes, the first of them no negation and not both literals, and the opposite of the
second. -/
structure Opposed (d : Dag α) (x y n : NodeId) : Prop where
  left_lt : x < d.count
  right_lt : y < d.count
  opposite_lt : n < d.count
  left_not_negation : d.negated? x = none
  not_literals : ¬ (d.isLiteral x ∧ d.isLiteral y)
  opposite : d.Opposite y n

theorem Opposed.mono (he : d.Extends e) (h : d.Opposed x y n) : e.Opposed x y n where
  left_lt := he.lt_count h.left_lt
  right_lt := he.lt_count h.right_lt
  opposite_lt := he.lt_count h.opposite_lt
  left_not_negation := (he.negated? h.left_lt).trans h.left_not_negation
  not_literals := by
    rw [he.isLiteral h.left_lt, he.isLiteral h.right_lt]
    exact h.not_literals
  opposite := h.opposite.mono he h.right_lt h.opposite_lt

theorem Opposed.symm (hneg : Scalar.NegCancels α) (hd : d.Lawful) (h : d.Opposed x y n) :
    d.Opposed x n y where
  left_lt := h.left_lt
  right_lt := h.opposite_lt
  opposite_lt := h.right_lt
  left_not_negation := h.left_not_negation
  not_literals := by
    rw [h.opposite.isLiteral_eq hd]
    exact h.not_literals
  opposite := h.opposite.symm hneg hd

/-- A difference and both sums with the opposite are built alike. -/
theorem Opposed.build_eq (hd : d.Lawful) (h : d.Opposed x y n) :
    (Application.binary .sub x y).build d = (Application.binary .add x n).build d ∧
      (Application.binary .add n x).build d = (Application.binary .add x n).build d := by
  refine ⟨Application.build_sub_eq_add hd h.left_lt h.right_lt h.opposite_lt h.left_not_negation
    h.not_literals h.opposite, Application.build_swap hd rfl h.left_lt h.opposite_lt ?_⟩
  rw [h.opposite.isLiteral_eq hd]
  exact h.not_literals

theorem Lawful.opposed (h : d.Lawful) (hx : x < d.count) (hy : y < d.count)
    (hneg : d.negated? x = none) (hl : ¬ (d.isLiteral x ∧ d.isLiteral y)) {d₁ : Dag α}
    (hb : (Application.unary .neg y).build d = (n, d₁)) :
    d₁.Lawful ∧ d.Extends d₁ ∧ d₁.Opposed x y n := by
  have ha := Application.adds_build h (Application.operand_lt .neg hy)
  have ho := Application.opposite_build h hy
  rw [hb] at ha ho
  have he := ha.grows.extends_ h
  refine ⟨ha.grows.lawful h, he, he.lt_count hx, he.lt_count hy, ha.lt n rfl,
    (he.negated? hx).trans hneg, ?_, ho⟩
  rwa [he.isLiteral hx, he.isLiteral hy]

end Dag

end SharedExpr

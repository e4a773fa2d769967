import Mathlib
import SharedExpr.Double.Basic
import SharedExpr.Proofs.Expr.Gathering

/-! Where a literal of doubles stands in a sum or a product does not matter. -/
namespace SharedExpr

namespace Double

open Float.Model in
/-- Zero is added from either side alike: the other number is rounded no more. -/
theorem add_ofBits_zero (x : Float) : x.add (.ofBits 0) = Float.add (.ofBits 0) x := by
  have hzero : (Float.ofBits 0).toModel.unpack = .zero .positive := rfl
  have hcomm : ∀ u : UnpackedFloat, u.add Format.binary64 (.zero .positive) =
      UnpackedFloat.add Format.binary64 (.zero .positive) u := by
    intro u
    cases u with
    | zero sign => cases sign <;> rfl
    | infinity | notANumber | finite => rfl
  show Float.ofModel (pack (UnpackedFloat.add Format.binary64 x.toModel.unpack _)) =
    Float.ofModel (pack (UnpackedFloat.add Format.binary64 _ x.toModel.unpack))
  rw [hzero, hcomm]

theorem zeroLaws : Scalar.ZeroLaws Double where
  add_zero_comm a := by
    show Scalar.normal (lift₂ Float.add a zero) = Scalar.normal (lift₂ Float.add zero a)
    have hzero : zero.isNaN = false := by decide
    rw [lift₂, lift₂, hzero]
    cases a.isNaN with
    | true => rfl
    | false => simp only [Bool.false_eq_true, if_false, zero, add_ofBits_zero]
  zero_add_zero := by decide
  two_ne_zero := by decide

end Double

namespace Dag

variable {d : Dag Double} {op : Binary} {l a b : NodeId}

/-- Where a literal stands in a sum or a product does not matter. With a literal `l`, other than
minus one in a product, and operands `a` and `b` that are neither literals nor sums or products with
a literal on their left nor, in a sum, negations, the five applications `(l a) b`, `(a l) b`,
`a (l b)`, `l (a b)` and `(a b) l` of the operator answer the same node, whichever of them comes
first and whatever else is built before the others. -/
theorem Reachable.literal_placement (h : d.Reachable) (hop : op.commutes) {value : Double}
    (hl : d.literal? l = some value)
    (hminus : op = .mul → value.same Scalar.minusOne = false)
    (ha : d.Symbolic op a) (hb : d.Symbolic op b) :
    ∀ first ∈ Expr.placements op l a b, ∀ r d₁, first.build d = (r, d₁) → ∀ e, d₁.Becomes e →
      ∀ form ∈ Expr.placements op l a b, (form.build e).1 = r := by
  have hg : d.Gathers op l a b :=
    { commutes := hop
      literal := Option.isSome_of_eq_some hl
      not_minus := fun hmul => by
        rw [Bool.eq_false_iff]
        intro hv
        obtain ⟨v, hv, hs⟩ := hasValue_iff.1 hv
        obtain rfl := Option.some.inj (hl.symm.trans hv)
        exact Bool.eq_false_iff.1 (hminus hmul) hs
      left := ha
      right := hb }
  intro first hfirst r d₁ hr e he form hf
  exact hg.placements_agree h.lawful Double.zeroLaws hfirst hr he hf

def threeBeside : Dag Double :=
  ((Command.lit ⟨0x4008000000000000⟩).run ((Command.var "x").run empty).2).2

theorem reachable_threeBeside : threeBeside.Reachable := by
  have hx : ((Command.var "x").run (empty : Dag Double)).1 = some (.node 0) := by cbv
  have hthree : ((Command.lit ⟨0x4008000000000000⟩).run
      ((Command.var "x").run (empty : Dag Double)).2).1 = some (.node 1) := by cbv
  exact (Reachable.empty.next hx).next hthree

/-- Three and twice the variable are `3 + 2 * x`, wherever the three stands. -/
theorem threeBeside_literal_placement : ∃ d₁,
    (Expr.grouped .add 1 0 0).build threeBeside = (5, d₁) ∧
    d₁.node? 5 = some ⟨.binary .add, [1, 4]⟩ ∧ d₁.node? 4 = some ⟨.binary .mul, [3, 0]⟩ ∧
    ∀ form ∈ Expr.placements .add 1 0 0, (form.build d₁).1 = 5 := by
  have hr : ((Expr.grouped .add 1 0 0).build threeBeside).1 = 5 := by cbv
  have hsum : ((Expr.grouped .add 1 0 0).build threeBeside).2.node? 5 =
      some ⟨.binary .add, [1, 4]⟩ := by cbv
  have htwice : ((Expr.grouped .add 1 0 0).build threeBeside).2.node? 4 =
      some ⟨.binary .mul, [3, 0]⟩ := by cbv
  have hl : threeBeside.literal? 1 = some ⟨0x4008000000000000⟩ := by cbv
  have hn : threeBeside.node? 0 = some ⟨.var "x", []⟩ := by cbv
  have hx : threeBeside.Symbolic .add 0 :=
    { lt_count := lt_of_node? hn
      not_literal := isLiteral_eq_false_of_node? hn rfl
      not_prefixed := bare_of_node? hn (by simp)
      not_negation := by simp [label?_of_node? hn] }
  have hadd : Binary.add.commutes := rfl
  have hagree := reachable_threeBeside.literal_placement hadd hl (by simp) hx hx
  exact ⟨_, Prod.ext hr rfl, hsum, htwice,
    hagree _ (by simp [Expr.placements]) 5 _ (Prod.ext hr rfl) _ .refl⟩

end Dag

end SharedExpr

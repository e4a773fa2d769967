import Mathlib
import SharedExpr.Double.Basic
import SharedExpr.Proofs.Expr.Opposite

/-! Subtraction, addition and negation agree by the nodes they answer. -/
namespace SharedExpr

namespace Double

theorem magnitude_neg (x : Double) : x.neg.magnitude = x.magnitude := by
  -- The two masks have no bit in common.
  have hmask : ∀ i : Fin 64, (0x8000000000000000#64)[i] = !(0x7fffffffffffffff#64)[i] := by decide
  apply UInt64.toBitVec_inj.1
  ext i hi
  have hi' := hmask ⟨i, hi⟩
  simp only [Fin.getElem_fin] at hi'
  simp only [neg, magnitude, UInt64.toBitVec_and, UInt64.toBitVec_xor, UInt64.toBitVec_ofNat,
    BitVec.getElem_and, BitVec.getElem_xor, hi']
  cases (0x7fffffffffffffff#64)[i] <;> simp

theorem isZero_neg (x : Double) : x.neg.isZero = x.isZero := by
  rw [isZero, isZero, magnitude_neg]

theorem same_zero (x : Double) : x.same zero = x.isZero := by
  have hz : zero.isNaN = false := by decide
  have hzz : zero.isZero = true := by decide
  rw [same, hz, hzz]
  cases h : x.isZero with
  | true =>
    have hm : x.magnitude = 0 := by simpa [isZero] using h
    simp [isNaN, hm]
  | false =>
    have hb : (x.bits == zero.bits) = false := by
      rw [beq_eq_false_iff_ne]
      intro hb
      have hx : x = zero := congrArg mk hb
      rw [hx, hzz] at h
      cases h
    simp [hb]

/-- Both zeros are stored as the positive one. -/
theorem normal_eq (x : Double) : Scalar.normal x = if x.isZero then zero else x := by
  rw [Scalar.normal, ← same_zero]
  rfl

theorem negCancels : Scalar.NegCancels Double := by
  intro a ha
  show Scalar.normal (Scalar.normal a.neg).neg = a
  cases hz : a.isZero with
  | true =>
    rw [normal_eq, hz, if_pos rfl] at ha
    subst ha
    decide
  | false =>
    rw [normal_eq a.neg, isZero_neg, hz, if_neg (by decide), neg_neg, normal_eq, hz,
      if_neg (by decide)]

end Double

namespace Dag

variable {α : Type} [Scalar α] {d d₁ d₂ d₃ : Dag α} {x y n r : NodeId}

theorem Settles.later {app : Application} (h : d.Settles app r) (hb : d.Becomes d₁) :
    d₁.Settles app r :=
  fun e he => h e (hb.trans he)

theorem Coincide.settles {apps : List Application} (h : d.Coincide apps) {first : Application}
    (hf : first ∈ apps) (hs : d.Settles first r) : ∀ app ∈ apps, d.Settles app r := by
  intro app hm e he
  obtain ⟨id, e', hall⟩ := h e he
  have hfirst := (hall first hf).1.symm.trans (hs e he)
  rw [(hall app hm).1, hfirst]

/-- A negation leaves a graph in which the difference coincides with both sums with the opposite,
and the difference with the opposite coincides with the sum. -/
theorem Lawful.coincide_neg (hneg : Scalar.NegCancels α) (h : d.Lawful) (hx : x < d.count)
    (hy : y < d.count) (hnx : d.negated? x = none) (hl : ¬ (d.isLiteral x ∧ d.isLiteral y))
    (hb : (Application.unary .neg y).build d = (n, d₁)) :
    d₁.Coincide [.binary .sub x y, .binary .add x n, .binary .add n x] ∧
      d₁.Coincide [.binary .sub x n, .binary .add x y] := by
  obtain ⟨h₁, -, ho⟩ := h.opposed hx hy hnx hl hb
  have hn : ∀ z ∈ (Application.binary .add x n).operands, z < d₁.count :=
    Application.operands_lt ho.left_lt ho.opposite_lt
  have hy : ∀ z ∈ (Application.binary .add x y).operands, z < d₁.count :=
    Application.operands_lt ho.left_lt ho.right_lt
  refine ⟨h₁.coincide hn fun e he hle app hm => ?_, h₁.coincide hy fun e he hle app hm => ?_⟩
  · obtain ⟨hsub, hswap⟩ := (ho.mono he).build_eq hle
    simp only [List.mem_cons, List.not_mem_nil, or_false] at hm
    rcases hm with rfl | rfl | rfl
    · exact hsub
    · rfl
    · exact hswap
  · obtain ⟨hsub, -⟩ := ((ho.mono he).symm hneg hle).build_eq hle
    simp only [List.mem_cons, List.not_mem_nil, or_false] at hm
    rcases hm with rfl | rfl
    · exact hsub
    · rfl

/-- What was built before a negation is settled after it. -/
theorem Lawful.settles_neg (h : d.Lawful) {app : Application}
    (ha : ∀ x ∈ app.operands, x < d.count) (hy : y < d.count) (hbuild : app.build d = (r, d₁))
    (hbe : d₁.Becomes d₂) (hb : (Application.unary .neg y).build d₂ = (n, d₃)) :
    d.Extends d₂ ∧ d₂.Lawful ∧ d₃.Settles app r := by
  have hg := (Application.adds_build h ha).grows
  have hs := h.settles_build ha
  rw [hbuild] at hg hs
  have hg₂ := hg.trans (hbe.grows (hg.lawful h))
  have he := hg₂.extends_ h
  have hneg : d₂.Becomes d₃ := by
    have hrun := (Command.run_apply (Application.operand_lt .neg (he.lt_count hy))).1
    rw [hb] at hrun
    exact .single ⟨_, _, by simp, hrun⟩
  exact ⟨he, hg₂.lawful h, hs.later (hbe.trans hneg)⟩

theorem Lawful.literal?_zero (h : d.Lawful) :
    (Build.zero d).2.literal? (Build.zero d).1 = some (Scalar.normal Scalar.zero) :=
  literal?_lit h Scalar.zero

variable {d : Dag Double}

/-- Subtraction, addition and negation agree by the nodes they answer. For `x` that is no negation,
and `x` and `y` not both literals, with `n` the negation of `y`: `x - y`, `x + n` and `n + x` are
one node, and `x - n` and `x + y` are one node, in whatever order they are asked for and whatever
else is built in between. Negating `x` twice leads back to `x`, and unless it is a literal, it and
its negation add up to the literal zero. -/
theorem Reachable.opposites_agree (h : d.Reachable) {x y : NodeId} (hx : x < d.count)
    (hy : y < d.count) :
    (d.label? x ≠ some (.unary .neg) → ¬ (d.isLiteral x ∧ d.isLiteral y) →
      (∀ n d₁, (Application.unary .neg y).build d = (n, d₁) →
        d₁.Coincide [.binary .sub x y, .binary .add x n, .binary .add n x] ∧
        d₁.Coincide [.binary .sub x n, .binary .add x y]) ∧
      (∀ r d₁ d₂ n d₃, (Application.binary .sub x y).build d = (r, d₁) → d₁.Becomes d₂ →
        (Application.unary .neg y).build d₂ = (n, d₃) →
        d₃.Settles (.binary .add x n) r ∧ d₃.Settles (.binary .add n x) r) ∧
      ∀ r d₁ d₂ n d₃, (Application.binary .add x y).build d = (r, d₁) → d₁.Becomes d₂ →
        (Application.unary .neg y).build d₂ = (n, d₃) → d₃.Settles (.binary .sub x n) r) ∧
    ∀ n d₁, (Application.unary .neg x).build d = (n, d₁) →
      d₁.Settles (.unary .neg n) x ∧
      (d.isLiteral x = false → ∀ e, d₁.Becomes e →
        (Application.binary .add x n).build e = Build.zero e ∧
        (Application.binary .add n x).build e = Build.zero e ∧
        (Build.zero e).2.literal? (Build.zero e).1 = some Double.zero) := by
  have hd := h.lawful
  refine ⟨fun hlabel hl => ?_, fun n d₁ hb => ?_⟩
  · have hnx := (negated?_eq_none_iff hd).2 hlabel
    -- The negation may be asked for in any later graph, and there it does the same.
    have hcoincide : ∀ {d₂ d₃ n}, d.Extends d₂ → d₂.Lawful →
        (Application.unary .neg y).build d₂ = (n, d₃) →
        d₃.Coincide [.binary .sub x y, .binary .add x n, .binary .add n x] ∧
        d₃.Coincide [.binary .sub x n, .binary .add x y] := fun he h₂ hb =>
      h₂.coincide_neg Double.negCancels (he.lt_count hx) (he.lt_count hy)
        ((he.negated? hx).trans hnx) (by rwa [he.isLiteral hx, he.isLiteral hy]) hb
    refine ⟨fun n d₁ hb => hcoincide (.refl d) hd hb, ?_, ?_⟩
    · intro r d₁ d₂ n d₃ hsub hbecomes hb
      obtain ⟨he, h₂, hs⟩ := hd.settles_neg (Application.operands_lt hx hy) hy hsub hbecomes hb
      have hall := (hcoincide he h₂ hb).1.settles (by simp) hs
      exact ⟨hall _ (by simp), hall _ (by simp)⟩
    · intro r d₁ d₂ n d₃ hadd hbecomes hb
      obtain ⟨he, h₂, hs⟩ := hd.settles_neg (Application.operands_lt hx hy) hy hadd hbecomes hb
      have hall := (hcoincide he h₂ hb).2.settles (by simp) hs
      exact hall _ (by simp)
  · have hn := Application.adds_build hd (Application.operand_lt .neg hx)
    have ho := Application.opposite_build hd hx
    rw [hb] at hn ho
    have he := hn.grows.extends_ hd
    have h₁ := hn.grows.lawful hd
    have hlx := he.lt_count hx
    have hln := hn.lt n rfl
    have hlater : ∀ e, d₁.Becomes e → d₁.Extends e ∧ e.Lawful ∧ e.Opposite x n := fun e hbe =>
      have hg := hbe.grows h₁
      ⟨hg.extends_ h₁, hg.lawful h₁, ho.mono (hg.extends_ h₁) hlx hln⟩
    refine ⟨fun e hbe => ?_, fun hl e hbe => ?_⟩
    · obtain ⟨-, hle, hoe⟩ := hlater e hbe
      exact Application.build_neg hle (hoe.symm Double.negCancels hle)
    · obtain ⟨he₁, hle, hoe⟩ := hlater e hbe
      have hle' : e.isLiteral x = false := ((he.trans he₁).isLiteral hx).trans hl
      obtain ⟨hxn, hnx⟩ := Application.build_add_opposite hle (he₁.lt_count hlx)
        (he₁.lt_count hln) hle' hoe
      exact ⟨hxn, hnx, hle.literal?_zero⟩

def difference : Dag Double :=
  ((Command.build (.binary .sub (.var "x") (.var "y"))).run empty).2

theorem reachable_difference : difference.Reachable := by
  have ho : ((Command.build (.binary .sub (.var "x") (.var "y"))).run (empty : Dag Double)).1 =
      some (.node 2) := by cbv
  exact Reachable.empty.next ho

/-- Once `y` is negated, `x + -y` and `-y + x` are the difference that was there before. -/
theorem difference_opposites_agree : ∃ d : Dag Double,
    (Application.unary .neg 1).build difference = (3, d) ∧
    d.Settles (.binary .add 0 3) 2 ∧ d.Settles (.binary .add 3 0) 2 ∧
    d.Coincide [.binary .sub 0 3, .binary .add 0 1] := by
  have hcount : difference.count = 3 := by cbv
  have hlabel : difference.label? 0 = some (.var "x") := by cbv
  have hliteral : difference.isLiteral 0 = false := by cbv
  have hsub : (Application.binary .sub 0 1).build difference = (2, difference) := by cbv
  have hneg : ((Application.unary .neg 1).build difference).1 = 3 := by cbv
  obtain ⟨hagree, -⟩ := reachable_difference.opposites_agree (x := 0) (y := 1)
    (by rw [hcount]; decide) (by rw [hcount]; decide)
  obtain ⟨hboth, hsettled, -⟩ := hagree (by simp [hlabel]) (by simp [hliteral])
  have hb : (Application.unary .neg 1).build difference = (3, _) := Prod.ext hneg rfl
  obtain ⟨hfirst, hsecond⟩ := hsettled 2 _ _ 3 _ hsub .refl hb
  exact ⟨_, hb, hfirst, hsecond, (hboth 3 _ hb).2⟩

end Dag

end SharedExpr

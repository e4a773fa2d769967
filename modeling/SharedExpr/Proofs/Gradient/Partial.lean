import Mathlib
import SharedExpr.Proofs.Gradient.Correctness
import SharedExpr.Proofs.Gradient.Outcome

/-! The derivatives of a node along its operands: they are the partial derivatives of its operator,
and over the reals those of analysis. -/
namespace SharedExpr

variable {K : Type} [Field K] [ExactScalar K]

/-- The partial derivatives of an operator from the values of its operands, one along each operand
with the others fixed. The exponent of a power is taken for a literal, which does not vary. -/
def Label.partials : Label K → List K → List K
  | .unary .neg, [_] => [-1]
  | .unary .exp, [x] => [Scalar.unary .exp x]
  | .unary .log, [x] => [1 / x]
  | .unary .sin, [x] => [Scalar.unary .cos x]
  | .unary .cos, [x] => [-Scalar.unary .sin x]
  | .binary .add, [_, _] => [1, 1]
  | .binary .sub, [_, _] => [1, -1]
  | .binary .mul, [x, y] => [y, x]
  | .binary .div, [x, y] => [1 / y, -x / y ^ 2]
  | .binary .pow, [x, y] => [y * Scalar.binary .pow x (y - 1), 0]
  | _, _ => []

theorem Unary.partials_eq (op : Unary) (x : K) :
    (Label.unary op).partials [x] = [op.slope x 1] := by
  cases op <;> simp [Label.partials, slope]

/-- The derivatives of an operator while one operand has the derivative one and the other zero. -/
theorem Binary.partials_eq (op : Binary) (x y : K) :
    (Label.binary op).partials [x, y] = [op.slope x y 1 0, op.slope x y 0 1] := by
  cases op with
  | add | sub | mul | pow => simp [Label.partials, slope]
  | div => simp [Label.partials, slope, sq, div_self_mul_self']

namespace Dag

variable {d d' : Dag K} {ρ : String → K} {node : Node K} {consumer slope x : NodeId}
  {position : Nat}

theorem partials_getElem? (h : d.Lawful) (hn : d.node? consumer = some node)
    (hx : node.operands[position]? = some x) (hg : node.label.isGradient = false) :
    (node.label.partials (node.operands.map (d.denote ρ)))[position]? =
      some (d.partialAt ρ ⟨consumer, position⟩) := by
  have hlt := (List.getElem?_eq_some_iff.1 hx).1
  rw [partialAt, hn]
  cases h.admits hn with
  | lit | var => cases hx
  | gradient => cases hg
  | unary op =>
    obtain rfl : position = 0 := Nat.lt_one_iff.1 hlt
    simp [op.partials_eq]
  | binary op =>
    obtain rfl | rfl : position = 0 ∨ position = 1 := Nat.le_one_iff_eq_zero_or_eq_one.1
      (Nat.le_of_lt_succ hlt)
    all_goals simp [op.partials_eq]

/-- The node that is built as a derivative has the value of the partial derivative. -/
theorem denote_derivative (h : d.Lawful) (hn : d.node? consumer = some node)
    (hx : node.operands[position]? = some x)
    (hs : derivative consumer position d = (.ok slope, d'))
    (hdiv : ∀ x y, node = ⟨.binary .div, [x, y]⟩ → d.denote ρ y ≠ 0) :
    (node.label.partials (node.operands.map (d.denote ρ)))[position]? =
      some (d'.denote ρ slope) := by
  have hg : node.label.isGradient = false := by
    rw [← operands_of_node? hn] at hx
    rcases derivative_outcome h hx with ⟨-, he⟩ | ⟨-, -, d₁, he⟩ | ⟨hg, -⟩
    · cases hs.symm.trans he
    · cases hs.symm.trans he
    · rwa [label?_of_node? hn] at hg
  have hslope : d'.denote ρ slope = d.partialAt ρ ⟨consumer, position⟩ :=
    derivative_value h hs fun x y hxy => hdiv x y (Option.some.inj (hn.symm.trans hxy))
  rw [partials_getElem? h hn hx hg, hslope]

theorem run_derivative (hc : consumer < d.count) :
    (Command.derivative consumer position).run d =
      (some (.ofExcept (derivative consumer position d).1),
        (derivative consumer position d).2) := by
  have hcontains : d.contains consumer := by simpa [contains] using hc
  rw [Command.run]
  dsimp only
  rw [if_pos hcontains, Command.attempt_apply]

/-- The derivative of a node along one of its operands. It is a misuse if and only if the node is a
gradient, and unsupported if and only if the node is a power with an exponent that is not a literal
and the operand is the exponent. Otherwise it is a node, and its value is that of the operator's
partial derivative along this operand alone, whether or not another operand is the same node. -/
theorem Reachable.local_derivatives (h : d.Reachable)
    (hp : position < (d.operands consumer).length) :
    ∃ outcome d', (Command.derivative consumer position).run d = (some outcome, d') ∧
      ((∃ cause, outcome = .failure (.misuse cause)) ↔
        (d.label? consumer).any Label.isGradient = true) ∧
      ((∃ reason, outcome = .failure (.unsupportedDerivative consumer reason)) ↔
        d.OpenPower consumer ∧ position = 1) ∧
      ((∃ slope, outcome = .node slope) ↔ (d.label? consumer).any Label.isGradient = false ∧
        ¬ (d.OpenPower consumer ∧ position = 1)) ∧
      (∀ fault, outcome = .failure fault → fault ∈ [Fault.misuse (.gradientDerivative consumer),
        .unsupportedDerivative consumer exponentReason]) ∧
      (∀ x < d.count, ∀ ρ, d'.denote ρ x = d.denote ρ x) ∧
      ∀ slope, outcome = .node slope → slope < d'.count ∧
        ∃ node, d.node? consumer = some node ∧
          ∀ ρ, (∀ x y, node = ⟨.binary .div, [x, y]⟩ → d.denote ρ y ≠ 0) →
            (node.label.partials (node.operands.map (d.denote ρ)))[position]? =
              some (d'.denote ρ slope) := by
  have hd := h.lawful
  obtain ⟨x, hx⟩ : ∃ x, (d.operands consumer)[position]? = some x :=
    ⟨_, List.getElem?_eq_getElem hp⟩
  have hc := hd.wellFormed.lt_of_operand hx
  have hadds := derivative_adds hd consumer position
  have hold : ∀ x < d.count, ∀ ρ, (derivative consumer position d).2.denote ρ x = d.denote ρ x :=
    fun x hx ρ => hadds.grows.denote hd ρ hx
  rw [run_derivative hc]
  rcases derivative_outcome hd hx with ⟨hg, he⟩ | ⟨hopen, hp, d', he⟩ | ⟨hg, hp, slope, d', he⟩
  · have hopen : ¬ d.OpenPower consumer := fun hopen => by
      rw [hopen.not_gradient] at hg
      cases hg
    rw [he]
    refine ⟨_, _, rfl, ?_⟩
    simp [Outcome.ofExcept, hg, hopen]
  · rw [he] at hold ⊢
    refine ⟨_, _, rfl, ?_⟩
    simpa [Outcome.ofExcept, hopen, hp, hopen.not_gradient] using hold
  · rw [he] at hold hadds ⊢
    refine ⟨_, _, rfl, by simp [Outcome.ofExcept, hg], by simpa [Outcome.ofExcept] using hp,
      by simpa [Outcome.ofExcept, hg] using hp, by simp [Outcome.ofExcept], hold, ?_⟩
    rintro _ ⟨⟩
    obtain ⟨node, hn⟩ := exists_node? hc
    rw [operands_of_node? hn] at hx
    exact ⟨hadds.lt slope rfl, node, hn, fun ρ hdiv => denote_derivative hd hn hx he hdiv⟩

def powerQuotient : Dag ℚ :=
  ((Command.build (.binary .div (.binary .pow (.var "x") (.var "x")) (.var "y"))).run empty).2

theorem reachable_powerQuotient : powerQuotient.Reachable := by
  have ho : ((Command.build (.binary .div (.binary .pow (.var "x") (.var "x")) (.var "y"))).run
      (empty : Dag ℚ)).1 = some (.node 3) := by cbv
  exact Reachable.empty.next ho

/-- At three and two, the derivative of `x ^ x` along the base is twenty-seven, and there is none
along the exponent; that of the quotient along `y` is minus a fourth of `x ^ x`. -/
theorem powerQuotient_local_derivatives :
    (∃ slope d', (Command.derivative 1 0).run powerQuotient = (some (.node slope), d') ∧
      d'.denote point slope = 27) ∧
    (∃ reason d', (Command.derivative 1 1).run powerQuotient =
      (some (.failure (.unsupportedDerivative 1 reason)), d')) ∧
    ∃ slope d', (Command.derivative 3 1).run powerQuotient = (some (.node slope), d') ∧
      d'.denote point slope = -27 / 4 := by
  have hn : powerQuotient.node? 1 = some ⟨.binary .pow, [0, 0]⟩ := by cbv
  have hn' : powerQuotient.node? 3 = some ⟨.binary .div, [1, 2]⟩ := by cbv
  have hx : powerQuotient.denote point 0 = 3 := by cbv
  have hy : powerQuotient.denote point 2 = 2 := by cbv
  have hp : powerQuotient.denote point 1 = 27 := by cbv
  have hopen : powerQuotient.OpenPower 1 := ⟨0, 0, hn, by cbv⟩
  refine ⟨?_, ?_, ?_⟩
  · have hlt : 0 < (powerQuotient.operands 1).length := by simp [operands_of_node? hn]
    obtain ⟨outcome, d', hrun, -, -, hnode, -, -, hvalue⟩ :=
      reachable_powerQuotient.local_derivatives hlt
    obtain ⟨slope, rfl⟩ := hnode.2 ⟨hopen.not_gradient, by simp⟩
    obtain ⟨-, node, hnode, hpartial⟩ := hvalue slope rfl
    cases hn.symm.trans hnode
    refine ⟨slope, d', hrun, ?_⟩
    have hslope : ((Label.binary .pow).partials [3, 3] : List ℚ)[0]? = some 27 := by cbv
    have hv := hpartial point (by simp)
    rw [List.map_cons, List.map_cons, List.map_nil, hx, hslope] at hv
    exact (Option.some.inj hv).symm
  · have hlt : 1 < (powerQuotient.operands 1).length := by simp [operands_of_node? hn]
    obtain ⟨outcome, d', hrun, -, hunsupported, -⟩ :=
      reachable_powerQuotient.local_derivatives hlt
    obtain ⟨reason, rfl⟩ := hunsupported.2 ⟨hopen, rfl⟩
    exact ⟨reason, d', hrun⟩
  · have hlt : 1 < (powerQuotient.operands 3).length := by simp [operands_of_node? hn']
    obtain ⟨outcome, d', hrun, -, -, hnode, -, -, hvalue⟩ :=
      reachable_powerQuotient.local_derivatives hlt
    have hopen' : ¬ powerQuotient.OpenPower 3 := by
      rw [openPower_iff hn']
      simp
    have hg : (powerQuotient.label? 3).any Label.isGradient = false := by
      rw [label?_of_node? hn']
      rfl
    obtain ⟨slope, rfl⟩ := hnode.2 ⟨hg, fun h => hopen' h.1⟩
    obtain ⟨-, node, hnode, hpartial⟩ := hvalue slope rfl
    cases hn'.symm.trans hnode
    refine ⟨slope, d', hrun, ?_⟩
    have hslope : ((Label.binary .div).partials [27, 2] : List ℚ)[1]? = some (-27 / 4 : ℚ) := by
      cbv
    have hv := hpartial point (by simp [hy])
    rw [List.map_cons, List.map_cons, List.map_nil, hp, hy, hslope] at hv
    exact (Option.some.inj hv).symm

end Dag

/-- All real numbers have one hash; equality tells them apart. -/
instance hashableReal : Hashable ℝ :=
  ⟨fun _ => 0⟩

theorem rpow_two_eq_mul_self (x : ℝ) : x ^ (2 : ℝ) = x * x := by
  rw [Real.rpow_two, sq]

noncomputable instance exactReal : ExactScalar ℝ :=
  .ofField ℝ Real.exp Real.log Real.sin Real.cos (· ^ ·) Real.rpow_zero Real.rpow_one
    rpow_two_eq_mul_self

theorem Unary.hasDerivAt (op : Unary) {x : ℝ} (hx : op = .log → x ≠ 0) :
    HasDerivAt (Scalar.unary op) (op.slope x 1) x := by
  cases op with
  | neg => exact (hasDerivAt_id x).neg
  | exp => exact (Real.hasDerivAt_exp x).congr_deriv (mul_one _).symm
  | log => exact (Real.hasDerivAt_log (hx rfl)).congr_deriv (by simp [slope])
  | sin => exact (Real.hasDerivAt_sin x).congr_deriv (mul_one _).symm
  | cos => exact (Real.hasDerivAt_cos x).congr_deriv (mul_one _).symm

theorem Binary.hasDerivAt_left (op : Binary) {x y : ℝ} (hpow : op = .pow → x ≠ 0 ∨ 1 ≤ y) :
    HasDerivAt (fun t => Scalar.binary op t y) (op.slope x y 1 0) x := by
  cases op with
  | add => exact ((hasDerivAt_id x).add_const y).congr_deriv (by simp [slope])
  | sub => exact ((hasDerivAt_id x).sub_const y).congr_deriv (by simp [slope])
  | mul => exact ((hasDerivAt_id x).mul_const y).congr_deriv (by simp [slope])
  | div => exact ((hasDerivAt_id x).div_const y).congr_deriv (by simp [slope])
  | pow => exact (Real.hasDerivAt_rpow_const (hpow rfl)).congr_deriv (mul_one _).symm

/-- Powers are left out: along a literal exponent there is nothing to vary. -/
theorem Binary.hasDerivAt_right (op : Binary) {x y : ℝ} (hdiv : op = .div → y ≠ 0)
    (hpow : op ≠ .pow) : HasDerivAt (fun t => Scalar.binary op x t) (op.slope x y 0 1) y := by
  cases op with
  | add => exact ((hasDerivAt_id y).const_add x).congr_deriv (by simp [slope])
  | sub => exact ((hasDerivAt_id y).const_sub x).congr_deriv (by simp [slope])
  | mul => exact ((hasDerivAt_id y).const_mul x).congr_deriv (by simp [slope])
  | div =>
    have h := (hasDerivAt_const y x).div (hasDerivAt_id y) (hdiv rfl)
    exact h.congr_deriv (by simp [slope, sq])
  | pow => exact absurd rfl hpow

/-- Where an operator has a derivative along the operand at a position. -/
def Label.Smooth : Label ℝ → Nat → List ℝ → Prop
  | .unary .log, _, [x] => x ≠ 0
  | .binary .div, _, [_, y] => y ≠ 0
  | .binary .pow, position, [x, y] => position = 0 ∧ (x ≠ 0 ∨ 1 ≤ y)
  | _, _, _ => True

/-- Over the reals the node that is built as a derivative has the value of the derivative of the
node's operator in the operand at the position, all others being fixed, where there is one. -/
theorem Dag.Reachable.hasDerivAt_derivative {d d' : Dag ℝ} (h : d.Reachable) {ρ : String → ℝ}
    {consumer slope x : NodeId} {position : Nat} {node : Node ℝ}
    (hn : d.node? consumer = some node) (hx : node.operands[position]? = some x)
    (hs : derivative consumer position d = (.ok slope, d'))
    (hsmooth : node.label.Smooth position (node.operands.map (d.denote ρ))) :
    HasDerivAt (fun t => node.label.denote ρ ((node.operands.map (d.denote ρ)).set position t))
      (d'.denote ρ slope) (d.denote ρ x) := by
  have hd := h.lawful
  have hlt := (List.getElem?_eq_some_iff.1 hx).1
  have hdiv : ∀ a b, d.node? consumer = some ⟨.binary .div, [a, b]⟩ → d.denote ρ b ≠ 0 := by
    intro a b hab
    cases hn.symm.trans hab
    exact hsmooth
  have hslope : d'.denote ρ slope = d.partialAt ρ ⟨consumer, position⟩ :=
    derivative_value hd hs hdiv
  rw [hslope, partialAt, hn]
  cases hd.admits hn with
  | lit | var => cases hx
  | gradient =>
    rw [derivative, hn] at hs
    cases hs
  | unary op =>
    obtain rfl : position = 0 := Nat.lt_one_iff.1 hlt
    obtain rfl := Option.some.inj hx
    refine op.hasDerivAt fun hop => ?_
    subst hop
    exact hsmooth
  | binary op =>
    obtain rfl | rfl : position = 0 ∨ position = 1 :=
      Nat.le_one_iff_eq_zero_or_eq_one.1 (Nat.le_of_lt_succ hlt)
    · obtain rfl := Option.some.inj hx
      refine op.hasDerivAt_left fun hop => ?_
      subst hop
      exact hsmooth.2
    · obtain rfl := Option.some.inj hx
      refine op.hasDerivAt_right (fun hop => hdiv _ _ (hop ▸ hn)) fun hop => ?_
      subst hop
      exact one_ne_zero hsmooth.1

end SharedExpr

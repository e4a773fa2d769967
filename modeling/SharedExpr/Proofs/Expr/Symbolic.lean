import Mathlib
import SharedExpr.Proofs.Expr.Opposite

/-! Sums and products of operands that hold no literal for them are no literals, unless a sum comes
to zero. -/
namespace SharedExpr

variable {α : Type} [Scalar α] {d e : Dag α} {op : Binary} {x y : NodeId}

/-- What sums and products of nodes rely on when numbers are folded in them: zero is added from
either side alike, zero and zero are zero, and two is not zero. -/
structure Scalar.ZeroLaws (α : Type) [Scalar α] : Prop where
  add_zero_comm : ∀ a : α, normal (binary .add a zero) = normal (binary .add zero a)
  zero_add_zero : normal (binary .add zero zero : α) = zero
  two_ne_zero : same (two : α) zero = false

namespace Dag

/-- An operand of a sum or a product that holds no literal for it: it is none, it has none on its
left, and it is no negation of a sum. -/
structure Symbolic (d : Dag α) (op : Binary) (x : NodeId) : Prop where
  lt_count : x < d.count
  not_literal : d.isLiteral x = false
  not_prefixed : ∀ a b, ¬ d.Prefixed op x a b
  not_negation : op = .add → d.label? x ≠ some (.unary .neg)

/-- What a sum or a product of such operands comes to: no literal, unless a sum is zero. -/
def Compound (d : Dag α) (op : Binary) (x : NodeId) : Prop :=
  d.isLiteral x = false ∨ op = .add ∧ d.literal? x = some Scalar.zero

theorem literal?_of_hasValue_zero (h : d.Lawful) (hx : d.hasValue x Scalar.zero) :
    d.literal? x = some Scalar.zero := by
  obtain ⟨a, ha, hs⟩ := hasValue_iff.1 hx
  have hnormal := (node?_of_literal? h ha).2
  rw [Scalar.normal, if_pos hs] at hnormal
  rw [ha, hnormal]

theorem hasValue_two (hz : Scalar.ZeroLaws α) (h : d.Lawful) :
    (Build.lit (Scalar.two : α) d).2.hasValue (Build.lit (Scalar.two : α) d).1 Scalar.zero =
      false := by
  have htwo : Scalar.normal (Scalar.two : α) = Scalar.two := by
    rw [Scalar.normal, hz.two_ne_zero]
    rfl
  rw [Bool.eq_false_iff]
  intro hv
  obtain ⟨a, ha, hs⟩ := hasValue_iff.1 hv
  rw [literal?_lit h, htwo] at ha
  obtain rfl := Option.some.inj ha
  rw [hz.two_ne_zero] at hs
  cases hs

namespace Symbolic

theorem mono (he : d.Extends e) (hw : d.WellFormed) (hx : d.Symbolic op x) : e.Symbolic op x where
  lt_count := he.lt_count hx.lt_count
  not_literal := (he.isLiteral hx.lt_count).trans hx.not_literal
  not_prefixed a b hp := hx.not_prefixed a b ((he.prefixed_iff hw hx.lt_count).1 hp)
  not_negation hop := he.label? hx.lt_count ▸ hx.not_negation hop

theorem negated?_eq_none (h : d.Lawful) (hx : d.Symbolic .add x) : d.negated? x = none :=
  (negated?_eq_none_iff h).2 (hx.not_negation rfl)

theorem not_regroup {ex : Expr α} (hx : d.Symbolic op x) (hy : d.Symbolic op y) :
    ¬ Regroup d op x y ex := by
  rintro (⟨hp, -⟩ | ⟨hl, -⟩ | ⟨-, -, hp⟩ | ⟨hp, -⟩)
  · exact hx.not_prefixed _ _ hp
  · rw [hx.not_literal] at hl
    cases hl
  · exact hy.not_prefixed _ _ hp
  · exact hx.not_prefixed _ _ hp

end Symbolic

end Dag

namespace Application

/-- An application is built as the node that stands for it, or as a rule says. -/
theorem build_cases (h : d.Lawful) {app : Application} (hx : ∀ x ∈ app.operands, x < d.count) :
    ((app.arrange d).replacement? d = none ∧ app.build d = d.intern (app.arrange d).node) ∨
      ∃ ex, Rewrite d (app.arrange d) ex ∧ app.build d = ex.build d := by
  cases hr : (app.arrange d).replacement? d with
  | none => exact Or.inl ⟨rfl, build_of_replacement?_none h hx hr⟩
  | some ex => exact Or.inr ⟨ex, rewrite_of_replacement? hr, build_of_replacement? h hx hr⟩

/-- An operator of two operands is built as a node, or as a rule says of them in one order or the
other. -/
theorem build_either (h : d.Lawful) (hlx : x < d.count) (hly : y < d.count)
    {P : NodeId × Dag α → Prop} (hnode : ∀ app : Application, P (d.intern app.node))
    (hrule : ∀ ex, Rewrite d (.binary op x y) ex ∨ Rewrite d (.binary op y x) ex → P (ex.build d)) :
    P ((binary op x y).build d) := by
  rcases build_cases h (operands_lt hlx hly) with ⟨-, hb⟩ | ⟨ex, hr, hb⟩
  · rw [hb]
    exact hnode _
  · rw [hb]
    rcases arrange_cases d op x y with ha | ha
    · exact hrule ex (Or.inl (ha ▸ hr))
    · exact hrule ex (Or.inr (ha ▸ hr))

theorem isLiteral_intern (h : d.Lawful) (app : Application) :
    (d.intern (app.node : Node α)).2.isLiteral (d.intern (app.node : Node α)).1 = false :=
  Dag.isLiteral_eq_false_of_node? (Dag.node?_intern h.wellFormed _) (by cases app <;> rfl)

theorem build_fold (h : d.Lawful) {u v : α} (hx : d.literal? x = some u)
    (hy : d.literal? y = some v) :
    (binary op x y).build d = Build.lit (Scalar.binary op u v) d := by
  have hlx := Dag.lt_of_node? (Dag.node?_of_literal? h hx).1
  have hly := Dag.lt_of_node? (Dag.node?_of_literal? h hy).1
  have ha : (binary op x y).arrange d = .binary op x y := by
    have hs : swaps d x y = false := by simp [swaps, Dag.isLiteral, hx]
    exact arrange_of_not_swaps hs
  refine build_of_replacement? (e := .lit (Scalar.binary op u v)) h (operands_lt hlx hly) ?_
  rw [ha]
  cases op <;> simp [replacement?, BinaryRule.all, BinaryRule.fold, hx, hy]

theorem isLiteral_build_neg (h : d.Lawful) (hlt : x < d.count) (hl : d.isLiteral x = false) :
    ((unary .neg x).build d).2.isLiteral ((unary .neg x).build d).1 = false := by
  have ho := opposite_build h hlt
  have hadds := adds_build h (operand_lt .neg hlt)
  rw [ho.isLiteral_eq (hadds.grows.lawful h), (hadds.grows.extends_ h).isLiteral hlt, hl]

/-- What the rules make of a product of a literal with what is none is no literal but zero, or it
brings two literals together. -/
theorem compound_of_rewrite (h : d.Lawful) (hly : y < d.count) (hx : d.isLiteral x)
    (hy : d.isLiteral y = false) {ex : Expr α} (hr : Rewrite d (.binary .mul x y) ex) :
    (ex.build d).2.Compound .add (ex.build d).1 ∨ ∃ c z, d.Prefixed .mul y c z ∧
      ex = .binary .mul (.binary .mul (.ref x) (.ref c)) (.ref z) := by
  cases hr with
  | foldBinary _ hv => simp [Dag.isLiteral, hv] at hy
  | zeroTimes hzero => exact Or.inl (Or.inr ⟨rfl, Dag.literal?_of_hasValue_zero h hzero⟩)
  | oneTimes => exact Or.inl (Or.inl hy)
  | minusOneTimes => exact Or.inl (Or.inl (isLiteral_build_neg h hly hy))
  | square =>
    rw [hx] at hy
    cases hy
  | regroup _ hg =>
    cases hg with
    | both hp | left hp => exact absurd hp (Dag.bare_of_isLiteral hx _ _)
    | literal _ hp => exact Or.inr ⟨_, _, hp, rfl⟩
    | right hl =>
      rw [hx] at hl
      cases hl

theorem compound_product (h : d.Lawful) (hlx : x < d.count) (hly : y < d.count)
    (hx : d.isLiteral x) (hy : d.isLiteral y = false) :
    ((binary .mul x y).build d).2.Compound .add ((binary .mul x y).build d).1 := by
  have hstep : ∀ {d : Dag α} {x y : NodeId}, d.Lawful → x < d.count → y < d.count →
      d.isLiteral x → d.isLiteral y = false →
      ((binary .mul x y).build d).2.Compound .add ((binary .mul x y).build d).1 ∨
        ∃ c z, d.Prefixed .mul y c z ∧ (binary .mul x y).build d =
          (Expr.binary .mul (.binary .mul (.ref x) (.ref c)) (.ref z)).build d := by
    intro d x y h hlx hly hx hy
    have ha : (binary .mul x y).arrange d = .binary .mul x y :=
      arrange_of_not_swaps (by simp [swaps, hx])
    rcases build_cases h (operands_lt hlx hly) with ⟨-, hb⟩ | ⟨ex, hr, hb⟩
    · rw [hb]
      exact Or.inl (Or.inl (isLiteral_intern h _))
    · rw [ha] at hr
      rw [hb]
      rcases compound_of_rewrite h hly hx hy hr with hc | ⟨c, z, hp, rfl⟩
      · exact Or.inl hc
      · exact Or.inr ⟨c, z, hp, rfl⟩
  rcases hstep h hlx hly hx hy with hc | ⟨c, z, hp, hb⟩
  · exact hc
  -- The two literals are folded to one, and what followed them has none on its left.
  obtain ⟨hlc, hlz⟩ := hp.lt_count h.wellFormed
  have ho := h.ordered_of_prefixed rfl hp
  obtain ⟨u, hu⟩ := Option.isSome_iff_exists.1 hx
  obtain ⟨v, hv⟩ := Option.isSome_iff_exists.1 hp.2
  have hadds := Dag.adds_lit h (Scalar.binary .mul u v)
  have he := hadds.grows.extends_ h
  have hz := (he.isLiteral hlz).trans ho.right_not_literal
  have hfolded := Option.isSome_of_eq_some (Dag.literal?_lit h (Scalar.binary .mul u v))
  have hbuild : (Expr.binary .mul (.binary .mul (.ref x) (.ref c)) (.ref z)).build d =
      (binary .mul (Build.lit (Scalar.binary .mul u v) d).1 z).build
        (Build.lit (Scalar.binary .mul u v) d).2 := by
    show (binary .mul ((binary .mul x c).build d).1 z).build ((binary .mul x c).build d).2 = _
    rw [build_fold h hu hv]
  rw [hb, hbuild]
  rcases hstep (hadds.grows.lawful h) (hadds.lt _ rfl) (he.lt_count hlz) hfolded hz with
    hc | ⟨c', z', hp', -⟩
  · exact hc
  · exact absurd ((he.prefixed_iff h.wellFormed hlz).1 hp') (ho.right_not_prefixed c' z')

/-- A sum of two operands that hold no literal is none either, but for zero. -/
theorem compound_sum (h : d.Lawful) (hx : d.Symbolic .add x) (hy : d.Symbolic .add y) :
    ((binary .add x y).build d).2.Compound .add ((binary .add x y).build d).1 := by
  have hrules : ∀ {x y : NodeId} {ex : Expr α}, d.Symbolic .add x → d.Symbolic .add y →
      Rewrite d (.binary .add x y) ex → (ex.build d).2.Compound .add (ex.build d).1 := by
    intro x y ex hx hy hr
    have hlx := hx.not_literal
    cases hr with
    | foldBinary hv => simp [Dag.isLiteral, hv] at hlx
    | zeroPlus hzero => simp [Dag.isLiteral_of_hasValue hzero] at hlx
    | double =>
      have hadds := Dag.adds_lit h (Scalar.two : α)
      have he := hadds.grows.extends_ h
      have htwo := Dag.literal?_lit h (Scalar.two : α)
      exact compound_product (hadds.grows.lawful h) (hadds.lt _ rfl) (he.lt_count hx.lt_count)
        (Option.isSome_of_eq_some htwo) ((he.isLiteral hx.lt_count).trans hlx)
    | negPlusSelf hv | negPlus hv => simp [hx.negated?_eq_none h] at hv
    | plusNegSelf hv | plusNeg hv => simp [hy.negated?_eq_none h] at hv
    | regroup _ hg => exact absurd hg (hx.not_regroup hy)
  exact build_either (P := fun r => r.2.Compound .add r.1) h hx.lt_count hy.lt_count
    (fun app => Or.inl (isLiteral_intern h app))
    fun ex hr => hr.elim (hrules hx hy) (hrules hy hx)

theorem isLiteral_power (h : d.Lawful) (hlx : x < d.count) (hly : y < d.count)
    (hx : d.isLiteral x = false) (hy : d.hasValue y Scalar.zero = false) :
    ((binary .pow x y).build d).2.isLiteral ((binary .pow x y).build d).1 = false := by
  rcases build_cases h (operands_lt hlx hly) with ⟨-, hb⟩ | ⟨ex, hr, hb⟩
  · rw [hb]
    exact isLiteral_intern h _
  rw [arrange_of_not_commutes rfl] at hr
  rw [hb]
  cases hr with
  | foldBinary hv => simp [Dag.isLiteral, hv] at hx
  | powZero hv =>
    rw [hy] at hv
    cases hv
  | powOne => exact hx
  | regroup hop => cases hop

theorem isLiteral_product (hz : Scalar.ZeroLaws α) (h : d.Lawful) (hx : d.Symbolic .mul x)
    (hy : d.Symbolic .mul y) :
    ((binary .mul x y).build d).2.isLiteral ((binary .mul x y).build d).1 = false := by
  have hrules : ∀ {x y : NodeId} {ex : Expr α}, d.Symbolic .mul x → d.Symbolic .mul y →
      Rewrite d (.binary .mul x y) ex → (ex.build d).2.isLiteral (ex.build d).1 = false := by
    intro x y ex hx hy hr
    have hlx := hx.not_literal
    cases hr with
    | foldBinary hv => simp [Dag.isLiteral, hv] at hlx
    | zeroTimes hv | oneTimes hv | minusOneTimes hv => simp [Dag.isLiteral_of_hasValue hv] at hlx
    | square =>
      have hadds := Dag.adds_lit h (Scalar.two : α)
      have he := hadds.grows.extends_ h
      exact isLiteral_power (hadds.grows.lawful h) (he.lt_count hx.lt_count) (hadds.lt _ rfl)
        ((he.isLiteral hx.lt_count).trans hlx) (Dag.hasValue_two hz h)
    | regroup _ hg => exact absurd hg (hx.not_regroup hy)
  exact build_either (P := fun r => r.2.isLiteral r.1 = false) h hx.lt_count hy.lt_count
    (isLiteral_intern h) fun ex hr => hr.elim (hrules hx hy) (hrules hy hx)

theorem compound_build (hz : Scalar.ZeroLaws α) (h : d.Lawful) (hop : op.commutes)
    (hx : d.Symbolic op x) (hy : d.Symbolic op y) :
    ((binary op x y).build d).2.Compound op ((binary op x y).build d).1 := by
  cases op with
  | add => exact compound_sum h hx hy
  | mul => exact Or.inl (isLiteral_product hz h hx hy)
  | sub | div | pow => cases hop

end Application

end SharedExpr

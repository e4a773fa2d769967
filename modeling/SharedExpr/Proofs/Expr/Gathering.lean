import Mathlib
import SharedExpr.Proofs.Expr.Symbolic

/-! A literal among the three operands of a sum or a product goes to the left of the other two, from
wherever it stands. -/
namespace SharedExpr

variable {α : Type} [Scalar α] {d e : Dag α} {op : Binary} {l a b s x y : NodeId}

namespace Expr

/-- A literal to the left of two operands taken together. -/
def gathered (op : Binary) (l a b : NodeId) : Expr α :=
  .binary op (.ref l) (.binary op (.ref a) (.ref b))

/-- A literal first taken together with one of two operands. -/
def grouped (op : Binary) (l a b : NodeId) : Expr α :=
  .binary op (.binary op (.ref l) (.ref a)) (.ref b)

/-- The sums or products of a literal and two operands, wherever the literal stands. -/
def placements (op : Binary) (l a b : NodeId) : List (Expr α) :=
  [grouped op l a b, .binary op (.binary op (.ref a) (.ref l)) (.ref b),
    .binary op (.ref a) (.binary op (.ref l) (.ref b)), gathered op l a b,
    .binary op (.binary op (.ref a) (.ref b)) (.ref l)]

end Expr

namespace Dag

/-- A literal that an operator leaves out: zero in a sum, one in a product. -/
def Neutral (d : Dag α) (op : Binary) (l : NodeId) : Prop :=
  op = .add ∧ d.hasValue l Scalar.zero ∨
    op = .mul ∧ d.hasValue l Scalar.zero = false ∧ d.hasValue l Scalar.one

/-- A literal that leaves nothing else: zero in a product. -/
def Absorbing (d : Dag α) (op : Binary) (l : NodeId) : Prop :=
  op = .mul ∧ d.hasValue l Scalar.zero

/-- A literal and two operands that hold none. The literal is not minus one in a product, which
would be a negation. -/
structure Gathers (d : Dag α) (op : Binary) (l a b : NodeId) : Prop where
  commutes : op.commutes
  literal : d.isLiteral l
  not_minus : op = .mul → d.hasValue l Scalar.minusOne = false
  left : d.Symbolic op a
  right : d.Symbolic op b

namespace Gathers

theorem lt_count (hg : d.Gathers op l a b) : l < d.count := by
  obtain ⟨v, hv⟩ := Option.isSome_iff_exists.1 hg.literal
  exact (Array.getElem?_eq_some_iff.1 (label?_of_literal? hv)).1

theorem refs_lt (hg : d.Gathers op l a b) {form : Expr α}
    (hf : form ∈ Expr.placements op l a b) : ∀ id ∈ form.refs, id < d.count := by
  have hl := hg.lt_count
  have ha := hg.left.lt_count
  have hb := hg.right.lt_count
  simp only [Expr.placements, List.mem_cons, List.not_mem_nil, or_false] at hf
  rcases hf with rfl | rfl | rfl | rfl | rfl <;>
    simp [Expr.refs, Expr.gathered, Expr.grouped, hl, ha, hb]

theorem mono (he : d.Extends e) (hw : d.WellFormed) (hg : d.Gathers op l a b) :
    e.Gathers op l a b where
  commutes := hg.commutes
  literal := (he.isLiteral hg.lt_count).trans hg.literal
  not_minus hop := (he.hasValue hg.lt_count _).trans (hg.not_minus hop)
  left := hg.left.mono he hw
  right := hg.right.mono he hw

theorem symm (hg : d.Gathers op l a b) : d.Gathers op l b a where
  commutes := hg.commutes
  literal := hg.literal
  not_minus := hg.not_minus
  left := hg.right
  right := hg.left

end Gathers

end Dag

namespace Application

variable (h : d.Lawful)
include h

theorem build_neutral (hn : d.Neutral op l) (hl : l < d.count) (hs : s < d.count)
    (hns : d.isLiteral s = false) : (binary op l s).build d = (s, d) := by
  have hliteral : d.isLiteral l := by
    rcases hn with ⟨-, hv⟩ | ⟨-, -, hv⟩ <;> exact Dag.isLiteral_of_hasValue hv
  have ha : (binary op l s).arrange d = .binary op l s :=
    arrange_of_not_swaps (by simp [swaps, hliteral])
  refine build_of_replacement? (e := .ref s) h (operands_lt hl hs) ?_
  rw [ha]
  rcases hn with ⟨rfl, hzero⟩ | ⟨rfl, hzero, hone⟩
  · simp [replacement?, BinaryRule.all, BinaryRule.fold, BinaryRule.zeroPlus,
      Dag.literal?_eq_none hns, hzero]
  · simp [replacement?, BinaryRule.all, BinaryRule.fold, BinaryRule.unitTimes,
      Dag.literal?_eq_none hns, hzero, hone]

theorem build_absorbing (ha : d.Absorbing op l) (hl : l < d.count) (hs : s < d.count)
    (hns : d.isLiteral s = false) : (binary op l s).build d = (l, d) := by
  obtain ⟨rfl, hzero⟩ := ha
  have ha : (binary .mul l s).arrange d = .binary .mul l s :=
    arrange_of_not_swaps (by simp [swaps, Dag.isLiteral_of_hasValue hzero])
  refine build_of_replacement? (e := .ref l) h (operands_lt hl hs) ?_
  rw [ha]
  simp [replacement?, BinaryRule.all, BinaryRule.fold, BinaryRule.unitTimes,
    Dag.literal?_eq_none hns, hzero]

theorem build_literal (hg : d.Gathers op l a b) (hn : ¬ d.Neutral op l)
    (habs : ¬ d.Absorbing op l) :
    (binary op l a).build d = d.intern ⟨.binary op, [l, a]⟩ := by
  have hl := hg.literal
  have hla := hg.left.not_literal
  have ha : (binary op l a).arrange d = .binary op l a :=
    arrange_of_not_swaps (by simp [swaps, hl])
  rcases build_cases h (operands_lt hg.lt_count hg.left.lt_count) with ⟨-, hb⟩ | ⟨ex, hr, -⟩
  · rw [hb, ha]
    rfl
  -- No rule applies.
  rw [ha] at hr
  cases hr with
  | foldBinary _ hv => simp [Dag.isLiteral, hv] at hla
  | zeroPlus hv => exact absurd (Or.inl ⟨rfl, hv⟩) hn
  | double | square =>
    rw [hl] at hla
    cases hla
  | negPlusSelf hv | negPlus hv =>
    rw [(h.negation hv).2.1] at hl
    cases hl
  | plusNegSelf hv | plusNeg hv => simp [hg.left.negated?_eq_none h] at hv
  | zeroTimes hv => exact absurd ⟨rfl, hv⟩ habs
  | oneTimes hv =>
    exact absurd (Or.inr ⟨rfl, Bool.eq_false_iff.2 fun hz => habs ⟨rfl, hz⟩, hv⟩) hn
  | minusOneTimes hv =>
    rw [hg.not_minus rfl] at hv
    cases hv
  | zeroMinus | minusLiteral | minusNeg | minusSelf | zeroOver | overSelf | powZero | powOne =>
    cases hg.commutes
  | regroup _ hr =>
    cases hr with
    | both hp | left hp => exact absurd hp (Dag.bare_of_isLiteral hl _ _)
    | literal _ hp | right _ _ hp => exact absurd hp (hg.left.not_prefixed _ _)

omit h in
/-- Of two different operands that are neither literals nor, in a sum, negations no rule makes
anything else but a regrouping. -/
theorem regroup_of_rewrite (hop : op.commutes) (hx : d.isLiteral x = false)
    (hy : d.isLiteral y = false) (hne : x ≠ y) (hnx : op = .add → d.negated? x = none)
    (hny : op = .add → d.negated? y = none) {ex : Expr α} (hr : Rewrite d (.binary op x y) ex) :
    Regroup d op x y ex := by
  cases hr with
  | foldBinary hv => simp [Dag.isLiteral, hv] at hx
  | zeroPlus hv | zeroTimes hv | oneTimes hv | minusOneTimes hv =>
    simp [Dag.isLiteral_of_hasValue hv] at hx
  | double | square => exact absurd rfl hne
  | negPlusSelf hv | negPlus hv => simp [hnx rfl] at hv
  | plusNegSelf hv | plusNeg hv => simp [hny rfl] at hv
  | zeroMinus | minusLiteral | minusNeg | minusSelf | zeroOver | overSelf | powZero | powOne =>
    cases hop
  | regroup _ hr => exact hr

theorem build_gathered_swap (hg : d.Gathers op l a b) :
    (Expr.gathered op l b a).build d = (Expr.gathered op l a b : Expr α).build d := by
  show (binary op l ((binary op b a).build d).1).build ((binary op b a).build d).2 = _
  rw [build_swap h hg.commutes hg.left.lt_count hg.right.lt_count (by simp [hg.right.not_literal])]
  rfl

/-- What has the literal on its left gives it up to the sum or the product with another operand. -/
theorem build_prefixed (hg : d.Gathers op l a b) {p : NodeId} (hp : d.Prefixed op p l a) :
    (binary op p b).build d = (Expr.gathered op l a b).build d := by
  have hlp : d.isLiteral p = false := Dag.isLiteral_eq_false_of_node? hp.1 rfl
  have hlb := hg.right.not_literal
  have hne : p ≠ b := fun he => hg.right.not_prefixed l a (he ▸ hp)
  have hnp : op = .add → d.negated? p = none := fun _ => by simp [Dag.negated?, hp.1]
  have hnb : op = .add → d.negated? b = none := by
    rintro rfl
    exact hg.right.negated?_eq_none h
  have hunique : ∀ {x y}, d.Prefixed op p x y → x = l ∧ y = a := by
    intro x y hxy
    simpa using hxy.1.symm.trans hp.1
  rcases build_cases h (operands_lt (Dag.lt_of_node? hp.1) hg.right.lt_count) with
    ⟨hr, -⟩ | ⟨ex, hr, hb⟩
  · -- It would not be in normal form.
    have hnormal := normal_of_replacement? h hr
    rcases arrange_cases d op p b with ha | ha
    · rw [ha] at hnormal
      cases hnormal with
      | add ho | mul ho => exact absurd hp (ho.left_not_prefixed _ _)
      | sub | div | pow => cases hg.commutes
    · rw [ha] at hnormal
      cases hnormal with
      | add ho | mul ho => exact absurd hp (ho.right_not_prefixed _ _)
      | sub | div | pow => cases hg.commutes
  rw [hb]
  rcases arrange_cases d op p b with ha | ha
  · rw [ha] at hr
    cases regroup_of_rewrite hg.commutes hlp hlb hne hnp hnb hr with
    | both _ hy | right _ _ hy => exact absurd hy (hg.right.not_prefixed _ _)
    | literal hl =>
      rw [hlp] at hl
      cases hl
    | left hx =>
      obtain ⟨rfl, rfl⟩ := hunique hx
      rfl
  · rw [ha] at hr
    cases regroup_of_rewrite hg.commutes hlb hlp (Ne.symm hne) hnb hnp hr with
    | both hx | left hx => exact absurd hx (hg.right.not_prefixed _ _)
    | literal hl =>
      rw [hlb] at hl
      cases hl
    | right _ _ hy =>
      obtain ⟨rfl, rfl⟩ := hunique hy
      exact build_gathered_swap h hg

/-- A literal may change places with the sum or product of two operands that hold none. -/
theorem build_compound_swap (hz : Scalar.ZeroLaws α) (hop : op.commutes) (hlt : l < d.count)
    (hl : d.isLiteral l) (hs : s < d.count) (hc : d.Compound op s) :
    (binary op s l).build d = (binary op l s).build d := by
  rcases hc with hns | ⟨rfl, hzero⟩
  · exact build_swap h hop hlt hs (by simp [hns])
  · -- Both are literals, and folded.
    obtain ⟨v, hv⟩ := Option.isSome_iff_exists.1 hl
    rw [build_fold h hzero hv, build_fold h hv hzero, Build.lit, Build.lit, hz.add_zero_comm v]

end Application

namespace Dag.Gathers

variable (h : d.Lawful) (hg : d.Gathers op l a b)
include h hg

theorem compound (hz : Scalar.ZeroLaws α) {d₁ : Dag α}
    (hb : (Application.binary op a b).build d = (s, d₁)) :
    d.Grows d₁ ∧ d₁.Lawful ∧ d₁.Gathers op l a b ∧ s < d₁.count ∧ d₁.Compound op s := by
  have hlt : ∀ x ∈ (Application.binary op a b).operands, x < d.count :=
    Application.operands_lt hg.left.lt_count hg.right.lt_count
  have hadds := Application.adds_build h hlt
  have hc := Application.compound_build hz h hg.commutes hg.left hg.right
  rw [hb] at hadds hc
  exact ⟨hadds.grows, hadds.grows.lawful h, hg.mono (hadds.grows.extends_ h) h.wellFormed,
    hadds.lt s rfl, hc⟩

theorem gathered_of_neutral (hz : Scalar.ZeroLaws α) (hn : d.Neutral op l) :
    (Expr.gathered op l a b).build d = (Application.binary op a b).build d := by
  rcases hb : (Application.binary op a b).build d with ⟨s, d₁⟩
  obtain ⟨hgrows, h₁, hg₁, hs, hc⟩ := hg.compound h hz hb
  have he := hgrows.extends_ h
  have hn₁ : d₁.Neutral op l := by
    simpa only [Neutral, he.hasValue hg.lt_count] using hn
  show (Application.binary op l ((Application.binary op a b).build d).1).build
    ((Application.binary op a b).build d).2 = _
  rw [hb]
  rcases hc with hns | ⟨rfl, hzero⟩
  · exact Application.build_neutral h₁ hn₁ hg₁.lt_count hs hns
  · -- The sum of the operands is zero, and so is that of zero and zero.
    have hl : d₁.literal? l = some Scalar.zero := by
      rcases hn₁ with ⟨-, hv⟩ | ⟨hop, -⟩
      · exact literal?_of_hasValue_zero h₁ hv
      · cases hop
    rw [Application.build_fold h₁ hl hzero]
    exact lit_eq h₁ (by rw [hz.zero_add_zero, hzero])

/-- A literal first taken together with one operand is set free again, in a graph that may have one
node more. -/
theorem grouped_leads (hz : Scalar.ZeroLaws α) (habs : ¬ d.Absorbing op l) :
    ∃ d', d.Grows d' ∧ (Expr.grouped op l a b).build d = (Expr.gathered op l a b).build d' := by
  have hform : (Expr.grouped op l a b).build d =
      (Application.binary op ((Application.binary op l a).build d).1 b).build
        ((Application.binary op l a).build d).2 := rfl
  by_cases hn : d.Neutral op l
  · refine ⟨d, .refl d, ?_⟩
    rw [hform, Application.build_neutral h hn hg.lt_count hg.left.lt_count hg.left.not_literal,
      hg.gathered_of_neutral h hz hn]
  · have hlt : ∀ x ∈ (Application.binary op l a).operands, x < d.count :=
      Application.operands_lt hg.lt_count hg.left.lt_count
    have hadds := Application.adds_build h hlt
    have hb := Application.build_literal h hg hn habs
    have hnode := node?_intern h.wellFormed (⟨.binary op, [l, a]⟩ : Node α)
    rw [← hb] at hnode
    have he := hadds.grows.extends_ h
    have hg₁ := hg.mono he h.wellFormed
    refine ⟨_, hadds.grows, ?_⟩
    rw [hform]
    exact Application.build_prefixed (hadds.grows.lawful h) hg₁ ⟨hnode, hg₁.literal⟩

theorem grouped_of_absorbing (habs : d.Absorbing op l) :
    (Expr.grouped op l a b).build d = (l, d) := by
  have hstep : ∀ {x}, d.Symbolic op x → (Application.binary op l x).build d = (l, d) := fun hx =>
    Application.build_absorbing h habs hg.lt_count hx.lt_count hx.not_literal
  show (Application.binary op ((Application.binary op l a).build d).1 b).build
    ((Application.binary op l a).build d).2 = _
  rw [hstep hg.left, hstep hg.right]

theorem gathered_of_absorbing (hz : Scalar.ZeroLaws α) (habs : d.Absorbing op l) :
    ((Expr.gathered op l a b).build d).1 = l := by
  rcases hb : (Application.binary op a b).build d with ⟨s, d₁⟩
  obtain ⟨hgrows, h₁, hg₁, hs, hc⟩ := hg.compound h hz hb
  have he := hgrows.extends_ h
  have habs₁ : d₁.Absorbing op l := by
    simpa only [Absorbing, he.hasValue hg.lt_count] using habs
  have hns : d₁.isLiteral s = false := by
    rcases hc with hns | ⟨rfl, -⟩
    · exact hns
    · cases habs.1
  show ((Application.binary op l ((Application.binary op a b).build d).1).build
    ((Application.binary op a b).build d).2).1 = l
  rw [hb, Application.build_absorbing h₁ habs₁ hg₁.lt_count hs hns]

/-- Every placement of the literal is built like one of two. -/
theorem build_placement (hz : Scalar.ZeroLaws α) {form : Expr α}
    (hf : form ∈ Expr.placements op l a b) :
    form.build d = (Expr.grouped op l a b).build d ∨
      form.build d = (Expr.grouped op l b a).build d ∨
      form.build d = (Expr.gathered op l a b).build d := by
  simp only [Expr.placements, List.mem_cons, List.not_mem_nil, or_false] at hf
  rcases hf with rfl | rfl | rfl | rfl | rfl
  · exact Or.inl rfl
  · refine Or.inl ?_
    show (Application.binary op ((Application.binary op a l).build d).1 b).build
      ((Application.binary op a l).build d).2 = _
    rw [Application.build_swap h hg.commutes hg.lt_count hg.left.lt_count
      (by simp [hg.left.not_literal])]
    rfl
  · refine Or.inr (Or.inl ?_)
    have hlt : ∀ x ∈ (Application.binary op l b).operands, x < d.count :=
      Application.operands_lt hg.lt_count hg.right.lt_count
    have hadds := Application.adds_build h hlt
    have ha := hg.left.mono (hadds.grows.extends_ h) h.wellFormed
    exact Application.build_swap (hadds.grows.lawful h) hg.commutes (hadds.lt _ rfl) ha.lt_count
      (by simp [ha.not_literal])
  · exact Or.inr (Or.inr rfl)
  · refine Or.inr (Or.inr ?_)
    rcases hb : (Application.binary op a b).build d with ⟨s, d₁⟩
    obtain ⟨-, h₁, hg₁, hs, hc⟩ := hg.compound h hz hb
    have hswap := Application.build_compound_swap h₁ hz hg.commutes hg₁.lt_count hg₁.literal hs hc
    show (Application.binary op ((Application.binary op a b).build d).1 l).build
      ((Application.binary op a b).build d).2 = (Application.binary op l
        ((Application.binary op a b).build d).1).build ((Application.binary op a b).build d).2
    rw [hb, hswap]

/-- Unless the literal absorbs the operands, all placements lead to the one with the operands taken
together. -/
theorem placement_leads (hz : Scalar.ZeroLaws α) (habs : ¬ d.Absorbing op l) {form : Expr α}
    (hf : form ∈ Expr.placements op l a b) :
    ∃ d', d.Grows d' ∧ form.build d = (Expr.gathered op l a b).build d' := by
  rcases hg.build_placement h hz hf with hb | hb | hb
  · rw [hb]
    exact hg.grouped_leads h hz habs
  · obtain ⟨d', hgrows, hd'⟩ := hg.symm.grouped_leads h hz habs
    refine ⟨d', hgrows, ?_⟩
    rw [hb, hd', Application.build_gathered_swap (hgrows.lawful h)
      (hg.mono (hgrows.extends_ h) h.wellFormed)]
  · exact ⟨d, .refl d, hb⟩

theorem placement_absorbed (hz : Scalar.ZeroLaws α) (habs : d.Absorbing op l) {form : Expr α}
    (hf : form ∈ Expr.placements op l a b) : (form.build d).1 = l := by
  rcases hg.build_placement h hz hf with hb | hb | hb
  · rw [hb, hg.grouped_of_absorbing h habs]
  · rw [hb, hg.symm.grouped_of_absorbing h habs]
  · rw [hb, hg.gathered_of_absorbing h hz habs]

/-- All placements of a literal answer one node, whichever of them was built first and whatever else
was built since. -/
theorem placements_agree (hz : Scalar.ZeroLaws α) {first form : Expr α} {r : NodeId} {d₁ : Dag α}
    (hfirst : first ∈ Expr.placements op l a b) (hb : first.build d = (r, d₁))
    (hbecomes : d₁.Becomes e) (hf : form ∈ Expr.placements op l a b) : (form.build e).1 = r := by
  have hadds := Expr.adds_build h (hg.refs_lt hfirst)
  rw [hb] at hadds
  have h₁ := hadds.grows.lawful h
  have hgrows := hadds.grows.trans (hbecomes.grows h₁)
  have he := hgrows.extends_ h
  have hle := hgrows.lawful h
  have hge := hg.mono he h.wellFormed
  by_cases habs : d.Absorbing op l
  · have habse : e.Absorbing op l := by
      simpa only [Absorbing, he.hasValue hg.lt_count] using habs
    have hr := hg.placement_absorbed h hz habs hfirst
    rw [hb] at hr
    rw [hge.placement_absorbed hle hz habse hf]
    exact hr.symm
  · have habse : ¬ e.Absorbing op l := by
      simpa only [Absorbing, he.hasValue hg.lt_count] using habs
    obtain ⟨d', hd', hfirst⟩ := hg.placement_leads h hz habs hfirst
    obtain ⟨e', he', hform⟩ := hge.placement_leads hle hz habse hf
    -- The first placement has found the node that the second one is led to.
    have hreplays : d'.Replays (Expr.gathered op l a b).build :=
      Expr.replays_build (hd'.lawful h)
        ((hg.mono (hd'.extends_ h) h.wellFormed).refs_lt (by simp [Expr.placements]))
    have hagain := hreplays e'
    rw [← hfirst, hb] at hagain
    have hext := ((hbecomes.grows h₁).trans he').extends_ h₁
    rw [hform, hagain hext (he'.lawful hle)]

end Dag.Gathers

end SharedExpr

import SharedExpr.Expr.Apply
import SharedExpr.Proofs.Dag.Denotation

/-! The rules for applications of operators as a relation, one case for each form of a rule. -/
namespace SharedExpr

variable {α : Type} [Scalar α] {d : Dag α}

namespace Dag

theorem negated?_eq_some {x a : NodeId} (h : d.negated? x = some a) :
    ∃ rest, d.node? x = some ⟨.unary .neg, a :: rest⟩ := by
  rw [negated?] at h
  split at h
  · next hn =>
    obtain rfl := Option.some.inj h
    exact ⟨_, hn⟩
  · simp at h

theorem hasValue_iff {x : NodeId} {value : α} :
    d.hasValue x value ↔ ∃ a, d.literal? x = some a ∧ Scalar.same a value := by
  simp only [hasValue, Option.any_eq_true, Label.hasValue, literal?, Option.bind_eq_some_iff]
  constructor
  · rintro ⟨label, hl, a, ha, hs⟩
    exact ⟨a, ⟨label, hl, ha⟩, hs⟩
  · rintro ⟨a, ⟨label, hl, ha⟩, hs⟩
    exact ⟨label, hl, a, ha, hs⟩

theorem label?_of_literal? {x : NodeId} {a : α} (h : d.literal? x = some a) :
    d.label? x = some (.lit a) := by
  obtain ⟨label, hl, ha⟩ := Option.bind_eq_some_iff.1 h
  cases label <;> simp [Label.literal?] at ha
  exact ha ▸ hl

theorem node?_of_literal? (h : d.Lawful) {x : NodeId} {a : α} (hx : d.literal? x = some a) :
    d.node? x = some ⟨.lit a, []⟩ ∧ Scalar.normal a = a := by
  obtain ⟨⟨label, operands⟩, hnode⟩ := exists_node?
    (Array.getElem?_eq_some_iff.1 (label?_of_literal? hx)).1
  obtain rfl : label = .lit a :=
    Option.some.inj ((label?_of_node? hnode).symm.trans (label?_of_literal? hx))
  cases h.admits hnode with
  | lit ha => exact ⟨hnode, ha⟩

end Dag

def Expr.refs : Expr α → List NodeId
  | ref id => [id]
  | lit _ | var _ => []
  | unary _ x => x.refs
  | binary _ x y => x.refs ++ y.refs

/-- The ways in which literals move towards the root of a sum or a product. -/
inductive Regroup (d : Dag α) (op : Binary) (x y : NodeId) : Expr α → Prop
  | both {a b c z : NodeId} (hx : d.Prefixed op x a b) (hy : d.Prefixed op y c z) :
    Regroup d op x y (.binary op (.binary op (.ref a) (.ref c)) (.binary op (.ref b) (.ref z)))
  | literal {c z : NodeId} (hx : d.isLiteral x) (hy : d.Prefixed op y c z) :
    Regroup d op x y (.binary op (.binary op (.ref x) (.ref c)) (.ref z))
  | right {c z : NodeId} (hl : d.isLiteral x = false) (hx : BinaryRule.prefixed? d op x = none)
    (hy : d.Prefixed op y c z) :
    Regroup d op x y (.binary op (.ref c) (.binary op (.ref x) (.ref z)))
  | left {a b : NodeId} (hx : d.Prefixed op x a b) (hy : BinaryRule.prefixed? d op y = none) :
    Regroup d op x y (.binary op (.ref a) (.binary op (.ref b) (.ref y)))

/-- What the rules may make of an application. -/
inductive Rewrite (d : Dag α) : Application → Expr α → Prop
  | foldUnary {op : Unary} {x : NodeId} {a : α} (hx : d.literal? x = some a) :
    Rewrite d (.unary op x) (.lit (Scalar.unary op a))
  | negNeg {x a : NodeId} (hx : d.negated? x = some a) : Rewrite d (.unary .neg x) (.ref a)
  | foldBinary {op : Binary} {x y : NodeId} {a b : α} (hx : d.literal? x = some a)
    (hy : d.literal? y = some b) : Rewrite d (.binary op x y) (.lit (Scalar.binary op a b))
  | zeroPlus {x y : NodeId} (hx : d.hasValue x Scalar.zero) : Rewrite d (.binary .add x y) (.ref y)
  | double {x : NodeId} :
    Rewrite d (.binary .add x x) (.binary .mul (.lit Scalar.two) (.ref x))
  | negPlusSelf {x y : NodeId} (hx : d.negated? x = some y) :
    Rewrite d (.binary .add x y) (.lit Scalar.zero)
  | negPlus {x y a : NodeId} (hx : d.negated? x = some a) :
    Rewrite d (.binary .add x y) (.binary .sub (.ref y) (.ref a))
  | plusNegSelf {x y : NodeId} (hy : d.negated? y = some x) :
    Rewrite d (.binary .add x y) (.lit Scalar.zero)
  | plusNeg {x y b : NodeId} (hy : d.negated? y = some b) :
    Rewrite d (.binary .add x y) (.binary .sub (.ref x) (.ref b))
  | minusSelf {x : NodeId} : Rewrite d (.binary .sub x x) (.lit Scalar.zero)
  | zeroMinus {x y : NodeId} (hx : d.hasValue x Scalar.zero) :
    Rewrite d (.binary .sub x y) (.unary .neg (.ref y))
  | minusLiteral {x y : NodeId} {m : α} (hy : d.literal? y = some m) :
    Rewrite d (.binary .sub x y) (.binary .add (.ref x) (.lit (Scalar.unary .neg m)))
  | minusNeg {x y b : NodeId} (hy : d.negated? y = some b) :
    Rewrite d (.binary .sub x y) (.binary .add (.ref x) (.ref b))
  | zeroTimes {x y : NodeId} (hx : d.hasValue x Scalar.zero) : Rewrite d (.binary .mul x y) (.ref x)
  | oneTimes {x y : NodeId} (hx : d.hasValue x Scalar.one) : Rewrite d (.binary .mul x y) (.ref y)
  | minusOneTimes {x y : NodeId} (hx : d.hasValue x Scalar.minusOne) :
    Rewrite d (.binary .mul x y) (.unary .neg (.ref y))
  | square {x : NodeId} : Rewrite d (.binary .mul x x) (.binary .pow (.ref x) (.lit Scalar.two))
  | zeroOver {x y : NodeId} (hx : d.hasValue x Scalar.zero) : Rewrite d (.binary .div x y) (.ref x)
  | overSelf {x : NodeId} : Rewrite d (.binary .div x x) (.lit Scalar.one)
  | powZero {x y : NodeId} (hy : d.hasValue y Scalar.zero) :
    Rewrite d (.binary .pow x y) (.lit Scalar.one)
  | powOne {x y : NodeId} (hy : d.hasValue y Scalar.one) : Rewrite d (.binary .pow x y) (.ref x)
  | regroup {op : Binary} {x y : NodeId} {e : Expr α} (hop : op.commutes)
    (h : Regroup d op x y e) : Rewrite d (.binary op x y) e

namespace UnaryRule

theorem fold_rewrite {op : Unary} {x : NodeId} {e : Expr α} (h : fold op d x = some e) :
    Rewrite d (.unary op x) e := by
  obtain ⟨a, ha, rfl⟩ := Option.map_eq_some_iff.1 h
  exact .foldUnary ha

theorem cancel_rewrite {x : NodeId} {e : Expr α} (h : cancel d x = some e) :
    Rewrite d (.unary .neg x) e := by
  obtain ⟨a, ha, rfl⟩ := Option.map_eq_some_iff.1 h
  exact .negNeg ha

end UnaryRule

namespace BinaryRule

variable {x y : NodeId} {e : Expr α}

theorem fold_rewrite {op : Binary} (h : fold op d x y = some e) : Rewrite d (.binary op x y) e := by
  obtain ⟨a, ha, h⟩ := Option.bind_eq_some_iff.1 h
  obtain ⟨b, hb, h⟩ := Option.bind_eq_some_iff.1 h
  obtain rfl := Option.some.inj h
  exact .foldBinary ha hb

theorem prefixed?_eq_some {op : Binary} {a b : NodeId} (h : prefixed? d op x = some (a, b)) :
    d.Prefixed op x a b := by
  rw [prefixed?] at h
  split at h
  · next hn =>
    split at h
    · next hop =>
      obtain ⟨rfl, rfl⟩ := Prod.mk.inj (Option.some.inj h)
      exact ⟨hop.1 ▸ hn, hop.2⟩
    · simp at h
  · simp at h

theorem regroup_eq_some {op : Binary} (h : regroup op d x y = some e) : Regroup d op x y e := by
  rw [regroup] at h
  split at h
  · next hx hy =>
    obtain rfl := Option.some.inj h
    exact .both (prefixed?_eq_some hx) (prefixed?_eq_some hy)
  · next hx hy =>
    split at h
    · next hl =>
      obtain rfl := Option.some.inj h
      exact .literal hl (prefixed?_eq_some hy)
    · next hl =>
      obtain rfl := Option.some.inj h
      exact .right (Bool.eq_false_iff.2 hl) hx (prefixed?_eq_some hy)
  · next hx hy =>
    obtain rfl := Option.some.inj h
    exact .left (prefixed?_eq_some hx) hy
  · simp at h

theorem add_rewrite {rule : BinaryRule α} (hr : rule ∈ all .add) (h : rule d x y = some e) :
    Rewrite d (.binary .add x y) e := by
  simp only [all, List.mem_cons, List.not_mem_nil, or_false] at hr
  rcases hr with rfl | rfl | rfl | rfl | rfl | rfl
  · exact fold_rewrite h
  · obtain ⟨hx, ⟨⟩⟩ := Option.ite_none_right_eq_some.1 h
    exact .zeroPlus hx
  · obtain ⟨rfl, ⟨⟩⟩ := Option.ite_none_right_eq_some.1 h
    exact .double
  · obtain ⟨a, ha, rfl⟩ := Option.map_eq_some_iff.1 h
    split
    · next hy => exact .negPlusSelf (hy ▸ ha)
    · exact .negPlus ha
  · obtain ⟨b, hb, rfl⟩ := Option.map_eq_some_iff.1 h
    split
    · next hx => exact .plusNegSelf (hx ▸ hb)
    · exact .plusNeg hb
  · exact .regroup rfl (regroup_eq_some h)

theorem sub_rewrite {rule : BinaryRule α} (hr : rule ∈ all .sub) (h : rule d x y = some e) :
    Rewrite d (.binary .sub x y) e := by
  simp only [all, List.mem_cons, List.not_mem_nil, or_false] at hr
  rcases hr with rfl | rfl | rfl | rfl | rfl
  · exact fold_rewrite h
  · obtain ⟨rfl, ⟨⟩⟩ := Option.ite_none_right_eq_some.1 h
    exact .minusSelf
  · obtain ⟨hx, ⟨⟩⟩ := Option.ite_none_right_eq_some.1 h
    exact .zeroMinus hx
  · obtain ⟨m, hm, rfl⟩ := Option.map_eq_some_iff.1 h
    exact .minusLiteral hm
  · obtain ⟨b, hb, rfl⟩ := Option.map_eq_some_iff.1 h
    exact .minusNeg hb

theorem mul_rewrite {rule : BinaryRule α} (hr : rule ∈ all .mul) (h : rule d x y = some e) :
    Rewrite d (.binary .mul x y) e := by
  simp only [all, List.mem_cons, List.not_mem_nil, or_false] at hr
  rcases hr with rfl | rfl | rfl | rfl
  · exact fold_rewrite h
  · rw [unitTimes] at h
    split at h
    · next hx =>
      obtain rfl := Option.some.inj h
      exact .zeroTimes hx
    · split at h
      · next hx =>
        obtain rfl := Option.some.inj h
        exact .oneTimes hx
      · obtain ⟨hx, ⟨⟩⟩ := Option.ite_none_right_eq_some.1 h
        exact .minusOneTimes hx
  · obtain ⟨rfl, ⟨⟩⟩ := Option.ite_none_right_eq_some.1 h
    exact .square
  · exact .regroup rfl (regroup_eq_some h)

theorem div_rewrite {rule : BinaryRule α} (hr : rule ∈ all .div) (h : rule d x y = some e) :
    Rewrite d (.binary .div x y) e := by
  simp only [all, List.mem_cons, List.not_mem_nil, or_false] at hr
  rcases hr with rfl | rfl | rfl
  · exact fold_rewrite h
  · obtain ⟨hx, ⟨⟩⟩ := Option.ite_none_right_eq_some.1 h
    exact .zeroOver hx
  · obtain ⟨rfl, ⟨⟩⟩ := Option.ite_none_right_eq_some.1 h
    exact .overSelf

theorem pow_rewrite {rule : BinaryRule α} (hr : rule ∈ all .pow) (h : rule d x y = some e) :
    Rewrite d (.binary .pow x y) e := by
  simp only [all, List.mem_cons, List.not_mem_nil, or_false] at hr
  rcases hr with rfl | rfl | rfl
  · exact fold_rewrite h
  · obtain ⟨hy, ⟨⟩⟩ := Option.ite_none_right_eq_some.1 h
    exact .powZero hy
  · obtain ⟨hy, ⟨⟩⟩ := Option.ite_none_right_eq_some.1 h
    exact .powOne hy

end BinaryRule

namespace Application

theorem rewrite_of_replacement? {app : Application} {e : Expr α}
    (h : app.replacement? d = some e) : Rewrite d app e := by
  cases app with
  | unary op x =>
    obtain ⟨rule, hr, he⟩ := List.exists_of_findSome?_eq_some h
    cases op <;> simp only [UnaryRule.all, List.mem_cons, List.not_mem_nil, or_false] at hr
    case neg =>
      rcases hr with rfl | rfl
      · exact UnaryRule.fold_rewrite he
      · exact UnaryRule.cancel_rewrite he
    all_goals
      subst hr
      exact UnaryRule.fold_rewrite he
  | binary op x y =>
    obtain ⟨rule, hr, he⟩ := List.exists_of_findSome?_eq_some h
    cases op with
    | add => exact BinaryRule.add_rewrite hr he
    | sub => exact BinaryRule.sub_rewrite hr he
    | mul => exact BinaryRule.mul_rewrite hr he
    | div => exact BinaryRule.div_rewrite hr he
    | pow => exact BinaryRule.pow_rewrite hr he

end Application

namespace Dag

theorem reaches_of_mem {x a : NodeId} (h : a ∈ d.operands x) : d.Reaches x a :=
  .single h

theorem reaches_of_negated? {x a : NodeId} (h : d.negated? x = some a) : d.Reaches x a := by
  obtain ⟨rest, hn⟩ := negated?_eq_some h
  have ho : d.operands x = a :: rest := operands_of_node? hn
  exact reaches_of_mem (by simp [ho])

theorem Prefixed.reaches {op : Binary} {x a b : NodeId} (h : d.Prefixed op x a b) :
    d.Reaches x a ∧ d.Reaches x b := by
  have ho : d.operands x = [a, b] := operands_of_node? h.1
  exact ⟨reaches_of_mem (by simp [ho]), reaches_of_mem (by simp [ho])⟩

theorem Prefixed.lt_count (hw : d.WellFormed) {op : Binary} {x a b : NodeId}
    (h : d.Prefixed op x a b) : a < d.count ∧ b < d.count :=
  ⟨hw.lt_of_mem_operands h.1 (by simp), hw.lt_of_mem_operands h.1 (by simp)⟩

end Dag

namespace Rewrite

/-- The rules refer to nothing but the operands and what is under them. -/
theorem refs_reached {app : Application} {e : Expr α} (h : Rewrite d app e) :
    ∀ id ∈ e.refs, ∃ x ∈ app.operands, d.Reaches x id := by
  have hself : ∀ x, d.Reaches x x := fun x => .refl
  cases h with
  | foldUnary | foldBinary | negPlusSelf | plusNegSelf | minusSelf | overSelf | powZero =>
    simp [Expr.refs]
  | zeroPlus | double | zeroMinus | minusLiteral | zeroTimes | oneTimes | minusOneTimes | square |
    zeroOver | powOne => simp [Expr.refs, Application.operands, hself]
  | negNeg ha | negPlus ha | plusNeg ha | minusNeg ha =>
    have hr := Dag.reaches_of_negated? ha
    simp [Expr.refs, Application.operands, hself, hr]
  | regroup _ h =>
    cases h with
    | both hx hy =>
      have hab := hx.reaches
      have hcz := hy.reaches
      simp [Expr.refs, Application.operands, hab, hcz]
    | literal _ ha | right _ _ ha | left ha _ =>
      have hab := ha.reaches
      simp [Expr.refs, Application.operands, hself, hab]

theorem refs_lt (hw : d.WellFormed) {app : Application} {e : Expr α} (h : Rewrite d app e)
    (hx : ∀ x ∈ app.operands, x < d.count) : ∀ id ∈ e.refs, id < d.count := by
  intro id hid
  obtain ⟨x, hm, hr⟩ := h.refs_reached id hid
  exact hr.lt_count hw (hx x hm)

end Rewrite

end SharedExpr

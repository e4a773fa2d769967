import Mathlib
import SharedExpr.Proofs.Exact
import SharedExpr.Proofs.Session

/-! Simplification keeps the value of an expression, in exact arithmetic. -/
namespace SharedExpr

/-- The value of an application whose operands have the values that they have in a graph. -/
def Application.value {α : Type} [Scalar α] (d : Dag α) (ρ : String → α) : Application → α
  | unary op x => Scalar.unary op (d.denote ρ x)
  | binary op x y => Scalar.binary op (d.denote ρ x) (d.denote ρ y)

def Expr.value {α : Type} [Scalar α] (d : Dag α) (ρ : String → α) : Expr α → α
  | ref id => d.denote ρ id
  | lit value => value
  | var name => ρ name
  | unary op x => Scalar.unary op (x.value d ρ)
  | binary op x y => Scalar.binary op (x.value d ρ) (y.value d ρ)

variable {K : Type} [Field K] [ExactScalar K] {d d' : Dag K} {ρ : String → K}

def Expr.NonzeroDenominators (d : Dag K) (ρ : String → K) : Expr K → Prop
  | ref _ | lit _ | var _ => True
  | unary _ x => x.NonzeroDenominators d ρ
  | binary op x y =>
    x.NonzeroDenominators d ρ ∧ y.NonzeroDenominators d ρ ∧ (op = .div → y.value d ρ ≠ 0)

/-- Zero is not divided by zero, the only quotient that the rules change. -/
def Application.Regular (d : Dag K) (ρ : String → K) : Application → Prop
  | binary .div x y => d.denote ρ x ≠ 0 ∨ d.denote ρ y ≠ 0
  | _ => True

def Expr.Regular (d : Dag K) (ρ : String → K) : Expr K → Prop
  | ref _ | lit _ | var _ => True
  | unary _ x => x.Regular d ρ
  | binary op x y =>
    x.Regular d ρ ∧ y.Regular d ρ ∧ (op = .div → x.value d ρ ≠ 0 ∨ y.value d ρ ≠ 0)

namespace Dag

theorem denote_of_literal? (hw : d.WellFormed) {x : NodeId} {a : K} (h : d.literal? x = some a) :
    d.denote ρ x = a := by
  have hl := label?_of_literal? h
  have hx : x < d.count := (Array.getElem?_eq_some_iff.1 hl).1
  obtain ⟨node, hn⟩ := exists_node? hx
  have hlab : node.label = .lit a := Option.some.inj ((label?_of_node? hn).symm.trans hl)
  rw [denote_eq hw ρ hn, hlab]
  rfl

theorem denote_of_hasValue (hw : d.WellFormed) {x : NodeId} {a : K} (h : d.hasValue x a) :
    d.denote ρ x = a := by
  obtain ⟨b, hb, hs⟩ := hasValue_iff.1 h
  rw [denote_of_literal? hw hb]
  exact (ExactScalar.same_iff b a).1 hs

theorem denote_of_negated? (hw : d.WellFormed) {x a : NodeId} (h : d.negated? x = some a) :
    d.denote ρ x = -d.denote ρ a := by
  obtain ⟨rest, hn⟩ := negated?_eq_some h
  rw [denote_eq hw ρ hn]
  exact ExactScalar.neg_eq _

theorem Prefixed.denote (hw : d.WellFormed) {op : Binary} {x a b : NodeId}
    (h : d.Prefixed op x a b) :
    d.denote ρ x = Scalar.binary op (d.denote ρ a) (d.denote ρ b) :=
  denote_eq hw ρ h.1

end Dag

namespace Rewrite

/-- The rules make no quotients. -/
theorem regular {app : Application} {e : Expr K} (h : Rewrite d app e) : e.Regular d ρ := by
  cases h with
  | regroup hop h =>
    cases h with
    | _ =>
      simp only [Expr.Regular, true_and]
      repeat' apply And.intro
      all_goals
        rintro rfl
        cases hop
  | _ => simp [Expr.Regular]

theorem value_eq (hw : d.WellFormed) {app : Application} {e : Expr K} (h : Rewrite d app e)
    (hr : app.Regular d ρ) : e.value d ρ = app.value d ρ := by
  cases h with
  | foldUnary hx => simp only [Expr.value, Application.value, Dag.denote_of_literal? hw hx]
  | foldBinary hx hy =>
    simp only [Expr.value, Application.value, Dag.denote_of_literal? hw hx,
      Dag.denote_of_literal? hw hy]
  | negNeg hx | negPlus hx | negPlusSelf hx =>
    simp [Expr.value, Application.value, Dag.denote_of_negated? hw hx, sub_eq_neg_add]
  | plusNeg hy | plusNegSelf hy | minusNeg hy =>
    simp [Expr.value, Application.value, Dag.denote_of_negated? hw hy, sub_eq_add_neg]
  | zeroPlus hx | zeroMinus hx | zeroTimes hx | oneTimes hx | minusOneTimes hx | zeroOver hx =>
    simp [Expr.value, Application.value, Dag.denote_of_hasValue hw hx]
  | double => simp [Expr.value, Application.value, two_mul]
  | minusSelf | square => simp [Expr.value, Application.value]
  | minusLiteral hy =>
    simp [Expr.value, Application.value, Dag.denote_of_literal? hw hy, sub_eq_add_neg]
  | overSelf =>
    have hx : d.denote ρ _ ≠ 0 := hr.elim id id
    simp [Expr.value, Application.value, div_self hx]
  | powZero hy | powOne hy =>
    simp [Expr.value, Application.value, Dag.denote_of_hasValue hw hy]
  | regroup hop h =>
    cases h with
    | @both a b c z hx hy =>
      simp only [Expr.value, Application.value, hx.denote hw, hy.denote hw]
      rw [ExactScalar.binary_assoc hop, ExactScalar.binary_assoc hop,
        ExactScalar.binary_left_comm hop (d.denote ρ c)]
    | literal _ hy =>
      simp only [Expr.value, Application.value, hy.denote hw, ExactScalar.binary_assoc hop]
    | right _ _ hy =>
      simp only [Expr.value, Application.value, hy.denote hw]
      exact ExactScalar.binary_left_comm hop _ _ _
    | left hx =>
      simp only [Expr.value, Application.value, hx.denote hw, ExactScalar.binary_assoc hop]

end Rewrite

namespace Application

theorem value_arrange (d : Dag K) (ρ : String → K) (app : Application) :
    (app.arrange d).value d ρ = app.value d ρ := by
  cases app with
  | unary op x => rfl
  | binary op x y =>
    rw [arrange]
    split
    · next h => exact ExactScalar.binary_comm (Bool.and_eq_true_iff.1 h).1 _ _
    · rfl

theorem Regular.arrange {app : Application} (h : app.Regular d ρ) :
    (app.arrange d).Regular d ρ := by
  cases app with
  | unary op x => exact h
  | binary op x y =>
    rw [Application.arrange]
    split
    · next hs =>
      cases op with
      | div => simp [Binary.commutes] at hs
      | add | sub | mul | pow => trivial
    · exact h

theorem denote_intern (h : d.Lawful) {app : Application} (hn : d.Admits app.node) :
    (d.intern app.node).2.denote ρ (d.intern app.node).1 = app.value d ρ := by
  rw [Dag.denote_intern h hn]
  cases app <;> rfl

end Application

namespace Expr

theorem value_grows (hg : d.Grows d') (h : d.Lawful) {e : Expr K}
    (he : ∀ id ∈ e.refs, id < d.count) :
    e.value d' ρ = e.value d ρ := by
  induction e with
  | ref id => exact hg.denote h ρ (he id (by simp [refs]))
  | lit | var => rfl
  | unary op x ih => rw [value, value, ih he]
  | binary op x y ihx ihy =>
    rw [value, value, ihx fun id hid => he id (List.mem_append_left _ hid),
      ihy fun id hid => he id (List.mem_append_right _ hid)]

theorem Regular.grows (hg : d.Grows d') (h : d.Lawful) {e : Expr K}
    (he : ∀ id ∈ e.refs, id < d.count) (hr : e.Regular d ρ) : e.Regular d' ρ := by
  induction e with
  | ref | lit | var => trivial
  | unary op x ih => exact ih he hr
  | binary op x y ihx ihy =>
    have hx : ∀ id ∈ x.refs, id < d.count := fun id hid => he id (List.mem_append_left _ hid)
    have hy : ∀ id ∈ y.refs, id < d.count := fun id hid => he id (List.mem_append_right _ hid)
    refine ⟨ihx hx hr.1, ihy hy hr.2.1, fun hop => ?_⟩
    rw [value_grows hg h hx, value_grows hg h hy]
    exact hr.2.2 hop

theorem NonzeroDenominators.regular {e : Expr K} (h : e.NonzeroDenominators d ρ) :
    e.Regular d ρ := by
  induction e with
  | ref | lit | var => trivial
  | unary op x ih => exact ih h
  | binary op x y ihx ihy => exact ⟨ihx h.1, ihy h.2.1, fun hop => Or.inr (h.2.2 hop)⟩

/-- An expression keeps its value if the applications of its operators do. -/
theorem value_buildWith {f : Application → OptionT (Build K) NodeId}
    (hadds : ∀ (d : Dag K) (app : Application), d.Lawful → (∀ x ∈ app.operands, x < d.count) →
      d.Adds ((f app d).1 = some ·) (f app d).2)
    (hvalue : ∀ {d d' : Dag K} {app : Application} {id : NodeId}, d.Lawful →
      (∀ x ∈ app.operands, x < d.count) → app.Regular d ρ → f app d = (some id, d') →
      d'.denote ρ id = app.value d ρ)
    {e : Expr K} (h : d.Lawful) (he : ∀ id ∈ e.refs, id < d.count) (hr : e.Regular d ρ)
    {id : NodeId} (hb : e.buildWith f d = (some id, d')) : d'.denote ρ id = e.value d ρ := by
  induction e generalizing d d' id with
  | ref x =>
    cases hb
    rfl
  | lit value =>
    cases hb
    have hn : d.Admits ⟨.lit (Scalar.normal value), []⟩ := .lit (Dag.normal_normal value)
    exact (Dag.denote_intern h hn ρ).trans (ExactScalar.normal_eq value)
  | var name =>
    cases hb
    exact Dag.denote_intern h (.var name) ρ
  | unary op x ih =>
    obtain ⟨a, d₁, hx, ha⟩ := buildWith_unary_eq_some hb
    have hadd := adds_buildWith f hadds x h he
    rw [hx] at hadd
    have hlt : ∀ b ∈ (Application.unary op a).operands, b < d₁.count := by
      simpa [Application.operands] using hadd.lt a rfl
    rw [hvalue (hadd.grows.lawful h) hlt trivial ha, Application.value, value, ih h he hr hx]
  | binary op x y ihx ihy =>
    obtain ⟨a, b, d₁, d₂, hx, hy, hab⟩ := buildWith_binary_eq_some hb
    have hex : ∀ id ∈ x.refs, id < d.count := fun id hid => he id (List.mem_append_left _ hid)
    have hey : ∀ id ∈ y.refs, id < d.count := fun id hid => he id (List.mem_append_right _ hid)
    have haddx := adds_buildWith f hadds x h hex
    rw [hx] at haddx
    have hg := haddx.grows
    have h₁ := hg.lawful h
    have hey₁ : ∀ id ∈ y.refs, id < d₁.count := fun id hid => (hg.extends_ h).lt_count (hey id hid)
    have haddy := adds_buildWith f hadds y h₁ hey₁
    rw [hy] at haddy
    have hg₁ := haddy.grows
    have ha := haddx.lt a rfl
    have hva : d₂.denote ρ a = x.value d ρ := by rw [hg₁.denote h₁ ρ ha, ihx h hex hr.1 hx]
    have hvb : d₂.denote ρ b = y.value d ρ := by
      rw [ihy h₁ hey₁ (hr.2.1.grows hg h hey) hy, value_grows hg h hey]
    have hlt : ∀ c ∈ (Application.binary op a b).operands, c < d₂.count := by
      simpa [Application.operands] using ⟨(hg₁.extends_ h₁).lt_count ha, haddy.lt b rfl⟩
    have hreg : (Application.binary op a b).Regular d₂ ρ := by
      cases op with
      | div => simpa [Application.Regular, hva, hvb] using hr.2.2 rfl
      | add | sub | mul | pow => trivial
    rw [hvalue (hg₁.lawful h₁) hlt hreg hab, Application.value, value, hva, hvb]

end Expr

namespace Application

/-- Whatever rules fire on the way, an application has the value of its operator at the values of
its operands. -/
theorem value_buildAt? (depth : Nat) (h : d.Lawful) {app : Application}
    (hx : ∀ x ∈ app.operands, x < d.count) (hr : app.Regular d ρ) {id : NodeId}
    (hb : app.buildAt? depth d = (some id, d')) : d'.denote ρ id = app.value d ρ := by
  induction depth generalizing d d' app id with
  | zero => cases hb
  | succ depth ih =>
    have hx' : ∀ x ∈ (app.arrange d).operands, x < d.count :=
      fun x hm => hx x ((mem_operands_arrange d app x).1 hm)
    rw [← value_arrange]
    rw [buildAt?_succ] at hb
    cases he : (app.arrange d).replacement? d with
    | none =>
      rw [he] at hb
      cases hb
      exact denote_intern h (admits_of_replacement? h hx he)
    | some e =>
      rw [he] at hb
      have hrw := rewrite_of_replacement? he
      rw [← hrw.value_eq h.wellFormed hr.arrange]
      exact Expr.value_buildWith (fun d app h hx => adds_buildAt? depth h hx)
        (fun h hx hr hb => ih h hx hr hb) h (hrw.refs_lt h.wellFormed hx') hrw.regular hb

theorem value_build (h : d.Lawful) {app : Application} (hx : ∀ x ∈ app.operands, x < d.count)
    (hr : app.Regular d ρ) : (app.build d).2.denote ρ (app.build d).1 = app.value d ρ :=
  value_buildAt? nestingLimit h hx hr (buildAt?_eq_build h hx)

end Application

namespace Expr

theorem value_build (h : d.Lawful) {e : Expr K} (he : ∀ id ∈ e.refs, id < d.count)
    (hr : e.Regular d ρ) : (e.build d).2.denote ρ (e.build d).1 = e.value d ρ := by
  refine value_buildWith (f := fun app => liftM (app.build : Build K NodeId))
    (fun _ _ h hx => Application.adds_lift_build h hx) (fun h hx hr hb => ?_) h he hr
    (buildWith_lift _ e d)
  cases hb
  exact Application.value_build h hx hr

end Expr

namespace Dag

/-- The node that is built for an expression has the value of the expression, and so has every
single application; nodes keep their values, and a gradient has the value of its first part. -/
theorem Reachable.build_denotes (h : d.Reachable) (ρ : String → K) :
    (∀ e : Expr K, (∀ id ∈ e.refs, id < d.count) → e.NonzeroDenominators d ρ →
      ∃ id d', (Command.build e).run d = (some (.node id), d') ∧ id < d'.count ∧
        d'.denote ρ id = e.value d ρ ∧ ∀ x < d.count, d'.denote ρ x = d.denote ρ x) ∧
    (∀ app : Application, (∀ x ∈ app.operands, x < d.count) → app.Regular d ρ →
      ∃ id d', (Command.apply app).run d = (some (.node id), d') ∧ id < d'.count ∧
        d'.denote ρ id = app.value d ρ ∧ ∀ x < d.count, d'.denote ρ x = d.denote ρ x) ∧
    ∀ x parts, d.bundle? x = some parts → d.denote ρ x = d.denote ρ parts.primal := by
  have hd := h.lawful
  refine ⟨fun e he hn => ?_, fun app hx hr => ?_, fun x parts => denote_of_bundle? hd.wellFormed ρ⟩
  · have ha := Expr.adds_build hd he
    refine ⟨(e.build d).1, (e.build d).2, ?_, ha.lt _ rfl, Expr.value_build hd he hn.regular,
      fun x hx => ha.grows.denote hd ρ hx⟩
    rw [Command.run, map_apply, Expr.build?_eq hd he]
    rfl
  · have ha := Application.adds_build hd hx
    have hall : app.operands.all d.contains := by simpa [contains] using hx
    refine ⟨(app.build d).1, (app.build d).2, ?_, ha.lt _ rfl, Application.value_build hd hx hr,
      fun x hx => ha.grows.denote hd ρ hx⟩
    rw [Command.run, map_apply, Application.build?, if_pos hall]
    rfl

def quotient : Dag ℚ :=
  ((Command.build (.binary .div (.var "x") (.var "y"))).run empty).2

theorem reachable_quotient : quotient.Reachable := by
  have ho : ((Command.build (.binary .div (.var "x") (.var "y"))).run (empty : Dag ℚ)).1 =
      some (.node 2) := by cbv
  exact Reachable.empty.next ho

/-- For a quotient `q` of one, `(3 - -q) / (1 + q)` is built with the value two. -/
theorem quotient_build_denotes :
    ∃ id d', (Command.build (.binary .div (.binary .sub (.lit 3) (.unary .neg (.ref 2)))
        (.binary .add (.lit 1) (.ref 2)))).run quotient = (some (.node id), d') ∧
      id < d'.count ∧ d'.denote (fun _ => 2) id = 2 ∧
      ∀ x < 3, d'.denote (fun _ => 2) x = quotient.denote (fun _ => 2) x := by
  obtain ⟨hbuild, -, -⟩ := reachable_quotient.build_denotes fun _ => 2
  have hc : quotient.count = 3 := by cbv
  have hq : quotient.denote (fun _ => 2) 2 = 1 := by cbv
  obtain ⟨id, d', hrun, hlt, hv, hold⟩ :=
    hbuild (.binary .div (.binary .sub (.lit 3) (.unary .neg (.ref 2)))
      (.binary .add (.lit 1) (.ref 2))) (by simp [Expr.refs, hc])
      (by norm_num [Expr.NonzeroDenominators, Expr.value, hq])
  refine ⟨id, d', hrun, hlt, ?_, hc ▸ hold⟩
  norm_num [hv, Expr.value, hq]

end Dag

end SharedExpr

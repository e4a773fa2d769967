import SharedExpr.Proofs.Expr.Construction

/-! Construction does the same in every graph that extends what it leads to: it takes the same
branches and finds all its nodes. -/
namespace SharedExpr

variable {α : Type} [Scalar α] {d d' : Dag α}

/-- A step answers the same in every graph that extends what it leads to, and adds nothing there. -/
def Dag.Replays {β : Type} (d : Dag α) (f : Dag α → β × Dag α) : Prop :=
  ∀ e, (f d).2.Extends e → e.Lawful → f e = ((f d).1, e)

namespace Dag

namespace Extends

theorem prefixed? (h : Extends d d') (hw : d.WellFormed) {id : NodeId} (hid : id < d.count)
    (op : Binary) : BinaryRule.prefixed? d' op id = BinaryRule.prefixed? d op id := by
  rw [BinaryRule.prefixed?, BinaryRule.prefixed?, h.node? hid]
  split
  · next a b hn => rw [h.isLiteral (hw.lt_of_mem_operands hn (by simp))]
  · rfl

end Extends

end Dag

namespace Application

theorem swaps_extends (h : d.Extends d') {x y : NodeId} (hx : x < d.count) (hy : y < d.count) :
    swaps d' x y = swaps d x y := by
  rw [swaps, swaps, h.isLiteral hx, h.isLiteral hy]

theorem arrange_extends (h : d.Extends d') {app : Application}
    (hx : ∀ x ∈ app.operands, x < d.count) : app.arrange d' = app.arrange d := by
  cases app with
  | unary op x => rfl
  | binary op x y =>
    rw [arrange, arrange, swaps_extends h (hx x (by simp [operands])) (hx y (by simp [operands]))]

/-- The rules make the same of an application in every graph that extends one with its operands. -/
theorem replacement?_extends (h : d.Extends d') (hw : d.WellFormed) {app : Application}
    (hx : ∀ x ∈ app.operands, x < d.count) : app.replacement? d' = app.replacement? d := by
  cases app with
  | unary op x =>
    have hlt : x < d.count := hx x (by simp [operands])
    cases op <;>
      simp only [replacement?, UnaryRule.all, List.findSome?_cons, List.findSome?_nil,
        UnaryRule.fold, UnaryRule.cancel, h.literal? hlt, h.negated? hlt]
  | binary op x y =>
    have hlx : x < d.count := hx x (by simp [operands])
    have hly : y < d.count := hx y (by simp [operands])
    cases op <;>
      simp only [replacement?, BinaryRule.all, List.findSome?_cons, List.findSome?_nil,
        BinaryRule.fold, BinaryRule.zeroPlus, BinaryRule.double, BinaryRule.negPlus,
        BinaryRule.plusNeg, BinaryRule.minusSelf, BinaryRule.zeroMinus, BinaryRule.minusLiteral,
        BinaryRule.minusNeg, BinaryRule.unitTimes, BinaryRule.square, BinaryRule.zeroOver,
        BinaryRule.overSelf, BinaryRule.powZero, BinaryRule.powOne, BinaryRule.regroup,
        h.literal? hlx, h.literal? hly, h.isLiteral hlx, h.hasValue hlx, h.hasValue hly,
        h.negated? hlx, h.negated? hly, h.prefixed? hw hlx, h.prefixed? hw hly]

end Application

namespace Dag

/-- Nodes that were interned are found again. -/
theorem replays_intern (h : d.WellFormed) (node : Node α) : d.Replays (intern node) :=
  fun _ he hl => intern_of_node? hl.wellFormed (he _ _ (node?_intern h node))

theorem replays_lit (h : d.WellFormed) (value : α) : d.Replays (Build.lit value) :=
  replays_intern h _

theorem Replays.settled {β : Type} {f : Dag α → β × Dag α} (hf : d.Replays f)
    (hl : (f d).2.Lawful) : f (f d).2 = f d :=
  hf _ (.refl _) hl

/-- What added nothing adds nothing later. -/
theorem Replays.again {β : Type} {f : Dag α → β × Dag α} {b : β} (hf : d.Replays f)
    (hb : f d = (b, d)) (he : d.Extends d') (hl : d'.Lawful) : f d' = (b, d') := by
  have h := hf d'
  rw [hb] at h
  exact h he hl

theorem Replays.map {β γ : Type} {f : Dag α → β × Dag α} (hf : d.Replays f) (g : β → γ) :
    d.Replays fun e => (g (f e).1, (f e).2) := by
  intro e hext hl
  show (g (f e).1, (f e).2) = _
  rw [hf e hext hl]

theorem Replays.congr {β : Type} {f g : Dag α → β × Dag α} (hf : d.Replays f) (h : d.Lawful)
    (hd : d.Extends (f d).2) (hfg : ∀ e, d.Extends e → e.Lawful → g e = f e) : d.Replays g := by
  intro e hext hl
  rw [hfg d (.refl d) h] at hext ⊢
  rw [hfg e (hd.trans hext) hl]
  exact hf e hext hl

/-- Two steps that are done again one by one are done again together. -/
theorem Replays.bind {β γ : Type} {f : Dag α → β × Dag α} {g : β → Dag α → γ × Dag α}
    (hf : d.Replays f) (hg : (f d).2.Replays (g (f d).1))
    (he : (f d).2.Extends (g (f d).1 (f d).2).2) : d.Replays fun e => g (f e).1 (f e).2 := by
  intro e hext hl
  show g (f e).1 (f e).2 = _
  rw [hf e (he.trans hext) hl]
  exact hg e hext hl

end Dag

namespace Expr

theorem replays_buildWith {f : Application → OptionT (Build α) NodeId}
    (hadds : ∀ (d : Dag α) (app : Application), d.Lawful → (∀ x ∈ app.operands, x < d.count) →
      d.Adds ((f app d).1 = some ·) (f app d).2)
    (hf : ∀ (d : Dag α) (app : Application), d.Lawful → (∀ x ∈ app.operands, x < d.count) →
      d.Replays (f app))
    (e : Expr α) (h : d.Lawful) (he : ∀ id ∈ e.refs, id < d.count) :
    d.Replays (e.buildWith f) := by
  induction e generalizing d with
  | ref id => exact fun _ _ _ => rfl
  | lit value => exact (Dag.replays_intern h.wellFormed ⟨.lit (Scalar.normal value), []⟩).map some
  | var name => exact (Dag.replays_intern h.wellFormed ⟨.var name, []⟩).map some
  | unary op x ih =>
    intro e hext hl
    have hx := adds_buildWith f hadds x h he
    have hrx := ih h he e
    rw [buildWith_unary] at hext ⊢
    rw [buildWith_unary]
    rcases hr : (x.buildWith f d : Option NodeId × Dag α) with ⟨o, d₁⟩
    rw [hr] at hx hext hrx
    cases o with
    | none =>
      rw [hrx hext hl]
    | some a =>
      have h₁ := hx.grows.lawful h
      have ha : ∀ z ∈ (Application.unary op a).operands, z < d₁.count := by
        simpa [Application.operands] using hx.lt a rfl
      rw [hrx (((hadds d₁ _ h₁ ha).grows.extends_ h₁).trans hext) hl]
      exact hf d₁ _ h₁ ha e hext hl
  | binary op x y ihx ihy =>
    intro e hext hl
    have hex : ∀ id ∈ x.refs, id < d.count := fun id hid => he id (List.mem_append_left _ hid)
    have hey : ∀ id ∈ y.refs, id < d.count := fun id hid => he id (List.mem_append_right _ hid)
    have hx := adds_buildWith f hadds x h hex
    have hrx := ihx h hex e
    rw [buildWith_binary] at hext ⊢
    rw [buildWith_binary]
    rcases hr : (x.buildWith f d : Option NodeId × Dag α) with ⟨o, d₁⟩
    rw [hr] at hx hext hrx
    cases o with
    | none => rw [hrx hext hl]
    | some a =>
      have h₁ := hx.grows.lawful h
      have hey₁ : ∀ id ∈ y.refs, id < d₁.count := fun id hid =>
        (hx.grows.extends_ h).lt_count (hey id hid)
      have hy := adds_buildWith f hadds y h₁ hey₁
      have hry := ihy h₁ hey₁ e
      dsimp only at hext ⊢
      rcases hs : (y.buildWith f d₁ : Option NodeId × Dag α) with ⟨o, d₂⟩
      rw [hs] at hy hext hry
      have he₂ := hy.grows.extends_ h₁
      cases o with
      | none =>
        rw [hrx (he₂.trans hext) hl]
        dsimp only
        rw [hry hext hl]
      | some b =>
        have h₂ := hy.grows.lawful h₁
        have hab : ∀ z ∈ (Application.binary op a b).operands, z < d₂.count := by
          simpa [Application.operands] using ⟨he₂.lt_count (hx.lt a rfl), hy.lt b rfl⟩
        have hext₂ := ((hadds d₂ _ h₂ hab).grows.extends_ h₂).trans hext
        rw [hrx (he₂.trans hext₂) hl]
        dsimp only
        rw [hry hext₂ hl]
        exact hf d₂ _ h₂ hab e hext hl

end Expr

namespace Application

theorem replays_buildAt? (depth : Nat) (h : d.Lawful) {app : Application}
    (hx : ∀ x ∈ app.operands, x < d.count) : d.Replays (app.buildAt? depth) := by
  induction depth generalizing d app with
  | zero => exact fun _ _ _ => rfl
  | succ depth ih =>
    intro e hext hl
    have he := ((adds_buildAt? (depth + 1) h hx).grows.extends_ h).trans hext
    have hx' : ∀ x ∈ (app.arrange d).operands, x < d.count :=
      fun x hm => hx x ((mem_operands_arrange d app x).1 hm)
    rw [buildAt?_succ] at hext ⊢
    rw [buildAt?_succ, arrange_extends he hx, replacement?_extends he h.wellFormed hx']
    cases hr : (app.arrange d).replacement? d with
    | none =>
      rw [hr] at hext
      exact (Dag.replays_intern h.wellFormed (app.arrange d).node).map some e hext hl
    | some ex =>
      rw [hr] at hext
      exact Expr.replays_buildWith (fun _ _ h hx => adds_buildAt? depth h hx)
        (fun _ _ h hx => ih h hx) ex h ((rewrite_of_replacement? hr).refs_lt h.wellFormed hx') e
        hext hl

theorem replays_build (h : d.Lawful) {app : Application} (hx : ∀ x ∈ app.operands, x < d.count) :
    d.Replays app.build := by
  intro e hext hl
  have he := ((adds_build h hx).grows.extends_ h).trans hext
  have hb := buildAt?_eq_build h hx
  have hr := replays_buildAt? nestingLimit h hx e (by rw [hb]; exact hext) hl
  rw [hb, buildAt?_eq_build hl fun x hm => he.lt_count (hx x hm)] at hr
  obtain ⟨hid, hd⟩ := Prod.mk.inj hr
  exact Prod.ext (Option.some.inj hid) hd

/-- Unless both are literals, the operands of a sum or a product may change places. -/
theorem build_swap (h : d.Lawful) {op : Binary} (hop : op.commutes) {x y : NodeId}
    (hx : x < d.count) (hy : y < d.count) (hl : ¬ (d.isLiteral x ∧ d.isLiteral y)) :
    (binary op y x).build d = (binary op x y).build d := by
  have hat := buildAt?_swap hop hl nestingLimit
  rw [buildAt?_eq_build h (operands_lt hy hx), buildAt?_eq_build h (operands_lt hx hy)] at hat
  obtain ⟨hid, hd⟩ := Prod.mk.inj hat
  exact Prod.ext (Option.some.inj hid) hd

end Application

namespace Expr

theorem replays_build (h : d.Lawful) {e : Expr α} (he : ∀ id ∈ e.refs, id < d.count) :
    d.Replays e.build := by
  have hlift : ∀ (d : Dag α) (app : Application), d.Lawful → (∀ x ∈ app.operands, x < d.count) →
      d.Replays (liftM (app.build : Build α NodeId) : OptionT (Build α) NodeId) :=
    fun d app h hx => (Application.replays_build h hx).map some
  intro d' hext hl
  have hr := replays_buildWith (fun _ _ h hx => Application.adds_lift_build h hx) hlift e h he d'
  rw [buildWith_lift, buildWith_lift] at hr
  obtain ⟨hid, hd⟩ := Prod.mk.inj (hr hext hl)
  exact Prod.ext (Option.some.inj hid) hd

end Expr

end SharedExpr

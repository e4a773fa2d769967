import SharedExpr.Proofs.Expr.Construction

/-! What construction puts under a node: literals, operators and what is under the operands. -/
namespace SharedExpr

variable {α : Type} [Scalar α] {d d' : Dag α} {P : Dag α → NodeId → Prop}

namespace Dag

/-- A property of nodes that literals have, that operators get from their operands and that goes
down to all that is under a node. -/
structure Hereditary (P : Dag α → NodeId → Prop) : Prop where
  lasting : Lasting P
  under : ∀ {d : Dag α} {id x : NodeId}, P d id → d.Reaches id x → P d x
  literal : ∀ {d : Dag α} {id : NodeId} {value : α}, d.node? id = some ⟨.lit value, []⟩ → P d id
  operator : ∀ {d : Dag α} {app : Application} {id : NodeId}, d.node? id = some app.node →
    (∀ x ∈ app.operands, P d x) → P d id

end Dag

/-- An expression that brings in no variables of its own. -/
def Expr.Grounded : Expr α → Prop
  | ref _ | lit _ => True
  | var _ => False
  | unary _ x => x.Grounded
  | binary _ x y => x.Grounded ∧ y.Grounded

theorem Rewrite.grounded {app : Application} {e : Expr α} (h : Rewrite d app e) : e.Grounded := by
  cases h with
  | regroup _ hg => cases hg <;> simp [Expr.Grounded]
  | _ => simp [Expr.Grounded]

namespace Dag.Hereditary

theorem lit (hP : Hereditary P) (h : d.WellFormed) (value : α) :
    P (Build.lit value d).2 (Build.lit value d).1 :=
  hP.literal (node?_intern h _)

/-- An expression is built as a node with the property if the applications of its operators are. -/
theorem buildWith (hP : Hereditary P) {f : Application → OptionT (Build α) NodeId}
    (hadds : ∀ (d : Dag α) (app : Application), d.Lawful → (∀ x ∈ app.operands, x < d.count) →
      d.Adds ((f app d).1 = some ·) (f app d).2)
    (hf : ∀ {d d' : Dag α} {app : Application} {id : NodeId}, d.Lawful →
      (∀ x ∈ app.operands, x < d.count) → (∀ x ∈ app.operands, P d x) →
      f app d = (some id, d') → P d' id)
    {e : Expr α} (hv : e.Grounded) (h : d.Lawful) (he : ∀ id ∈ e.refs, id < d.count)
    (hrefs : ∀ id ∈ e.refs, P d id) {id : NodeId} (hb : e.buildWith f d = (some id, d')) :
    P d' id := by
  induction e generalizing d d' id with
  | ref x =>
    cases hb
    exact hrefs x (by simp [Expr.refs])
  | lit value =>
    cases hb
    exact hP.lit h.wellFormed value
  | var name => exact hv.elim
  | unary op x ih =>
    obtain ⟨a, d₁, hx, ha⟩ := Expr.buildWith_unary_eq_some hb
    have hadd := Expr.adds_buildWith f hadds x h he
    rw [hx] at hadd
    refine hf (hadd.grows.lawful h) ?_ ?_ ha
    · simpa [Application.operands] using hadd.lt a rfl
    · simpa [Application.operands] using ih hv h he hrefs hx
  | binary op x y ihx ihy =>
    obtain ⟨a, b, d₁, d₂, hx, hy, hab⟩ := Expr.buildWith_binary_eq_some hb
    have hex : ∀ id ∈ x.refs, id < d.count := fun id hid => he id (List.mem_append_left _ hid)
    have hey : ∀ id ∈ y.refs, id < d.count := fun id hid => he id (List.mem_append_right _ hid)
    have haddx := Expr.adds_buildWith f hadds x h hex
    rw [hx] at haddx
    have h₁ := haddx.grows.lawful h
    have he₁ := haddx.grows.extends_ h
    have haddy := Expr.adds_buildWith f hadds y h₁ fun id hid => he₁.lt_count (hey id hid)
    rw [hy] at haddy
    have he₂ := haddy.grows.extends_ h₁
    have hPa := ihx hv.1 h hex (fun id hid => hrefs id (List.mem_append_left _ hid)) hx
    have hPb := ihy hv.2 h₁ (fun id hid => he₁.lt_count (hey id hid)) (fun id hid =>
      hP.lasting h.wellFormed he₁ (hey id hid) (hrefs id (List.mem_append_right _ hid))) hy
    refine hf (haddy.grows.lawful h₁) ?_ ?_ hab
    · simpa [Application.operands] using ⟨he₂.lt_count (haddx.lt a rfl), haddy.lt b rfl⟩
    · simpa [Application.operands] using
        ⟨hP.lasting h₁.wellFormed he₂ (haddx.lt a rfl) hPa, hPb⟩

theorem buildAt? (hP : Hereditary P) (depth : Nat) (h : d.Lawful) {app : Application}
    (hx : ∀ x ∈ app.operands, x < d.count) (hPx : ∀ x ∈ app.operands, P d x) {id : NodeId}
    (hb : app.buildAt? depth d = (some id, d')) : P d' id := by
  induction depth generalizing d d' app id with
  | zero => cases hb
  | succ depth ih =>
    have hmem := Application.mem_operands_arrange d app
    have hx' : ∀ x ∈ (app.arrange d).operands, x < d.count := fun x hm => hx x ((hmem x).1 hm)
    have hPx' : ∀ x ∈ (app.arrange d).operands, P d x := fun x hm => hPx x ((hmem x).1 hm)
    rw [Application.buildAt?_succ] at hb
    cases he : (app.arrange d).replacement? d with
    | none =>
      rw [he] at hb
      cases hb
      exact hP.operator (node?_intern h.wellFormed _) fun x hm =>
        hP.lasting h.wellFormed (extends_intern h.wellFormed _) (hx' x hm) (hPx' x hm)
    | some e =>
      rw [he] at hb
      have hrw := Application.rewrite_of_replacement? he
      refine hP.buildWith (fun d app h hx => Application.adds_buildAt? depth h hx)
        (fun h hx hPx hb => ih h hx hPx hb) hrw.grounded h (hrw.refs_lt h.wellFormed hx')
        (fun id hid => ?_) hb
      obtain ⟨x, hm, hr⟩ := hrw.refs_reached id hid
      exact hP.under (hPx' x hm) hr

/-- An application is built as a node with the property if its operands have it. -/
theorem build (hP : Hereditary P) (h : d.Lawful) {app : Application}
    (hx : ∀ x ∈ app.operands, x < d.count) (hPx : ∀ x ∈ app.operands, P d x) :
    P (app.build d).2 (app.build d).1 :=
  hP.buildAt? _ h hx hPx (Application.buildAt?_eq_build h hx)

theorem buildExpr (hP : Hereditary P) (h : d.Lawful) {e : Expr α} (hv : e.Grounded)
    (he : ∀ id ∈ e.refs, id < d.count) (hrefs : ∀ id ∈ e.refs, P d id) :
    P (e.build d).2 (e.build d).1 := by
  refine hP.buildWith (f := fun app => liftM (app.build : Build α NodeId))
    (fun _ _ h hx => Application.adds_lift_build h hx) (fun h hx hPx hb => ?_) hv h he hrefs
    (Expr.buildWith_lift _ e d)
  cases hb
  exact hP.build h hx hPx

end Dag.Hereditary

namespace Dag

/-- Variables and gradients, which no rule brings in. -/
def IsSource (d : Dag α) (id : NodeId) : Prop :=
  (d.name? id).isSome ∨ (d.label? id).any Label.isGradient

def GradientFree (d : Dag α) (root : NodeId) : Prop :=
  ∀ id, d.Reaches root id → (d.label? id).any Label.isGradient = false

/-- All variables and gradients under a node are under one of some given nodes. -/
def Confined (xs : List NodeId) (d : Dag α) (id : NodeId) : Prop :=
  ∀ v, d.Reaches id v → d.IsSource v → ∃ x ∈ xs, d.Reaches x v

theorem Extends.isSource_iff (he : Extends d d') {id : NodeId} (hid : id < d.count) :
    d'.IsSource id ↔ d.IsSource id := by
  rw [IsSource, IsSource, he.name? hid, he.label? hid]

theorem reaches_iff_of_node? {id v : NodeId} {node : Node α} (hn : d.node? id = some node) :
    d.Reaches id v ↔ id = v ∨ ∃ x ∈ node.operands, d.Reaches x v := by
  rw [Reaches, Relation.ReflTransGen.cases_head_iff, operands_of_node? hn]

theorem confined_self {xs : List NodeId} {id : NodeId} (hid : id ∈ xs) : Confined xs d id :=
  fun _ hv _ => ⟨id, hid, hv⟩

theorem hereditary_confined (xs : List NodeId) : Hereditary (Confined (α := α) xs) where
  lasting hw he hid hc v hv hs := by
    have hv' := (he.reaches_iff hw hid).1 hv
    obtain ⟨x, hx, hr⟩ := hc v hv' ((he.isSource_iff (hv'.lt_count hw hid)).1 hs)
    exact ⟨x, hx, he.reaches hw hr⟩
  under hc hr v hv hs := hc v (hr.trans hv) hs
  literal {d id value} hn v hv hs := by
    rcases (reaches_iff_of_node? hn).1 hv with rfl | ⟨x, hx, -⟩
    · simp [IsSource, name?, label?_of_node? hn, Label.name?, Label.isGradient] at hs
    · cases hx
  operator {d app id} hn hx v hv hs := by
    rcases (reaches_iff_of_node? hn).1 hv with rfl | ⟨x, hm, hr⟩
    · cases app <;>
        simp [IsSource, name?, label?_of_node? hn, Application.node, Label.name?,
          Label.isGradient] at hs
    · refine hx x ?_ v hr hs
      cases app <;> exact hm

end Dag

/-- The variables and gradients under an application are those under its operands. -/
theorem Application.sources_build (h : d.Lawful) {app : Application}
    (hx : ∀ x ∈ app.operands, x < d.count) {v : NodeId}
    (hv : (app.build d).2.Reaches (app.build d).1 v) (hs : (app.build d).2.IsSource v) :
    ∃ x ∈ app.operands, d.Reaches x v := by
  have he := (adds_build h hx).grows.extends_ h
  have hc := (Dag.hereditary_confined app.operands).build h hx fun _ hm => Dag.confined_self hm
  obtain ⟨x, hm, hr⟩ := hc v hv hs
  exact ⟨x, hm, (he.reaches_iff h.wellFormed (hx x hm)).1 hr⟩

theorem Application.gradientFree_build (h : d.Lawful) {app : Application}
    (hx : ∀ x ∈ app.operands, x < d.count) (hfree : ∀ x ∈ app.operands, d.GradientFree x) :
    (app.build d).2.GradientFree (app.build d).1 := by
  intro v hv
  by_contra hg
  obtain ⟨x, hm, hr⟩ := sources_build h hx hv (Or.inr (by simpa using hg))
  have he := (adds_build h hx).grows.extends_ h
  rw [he.label? (hr.lt_count h.wellFormed (hx x hm)), hfree x hm v hr] at hg
  exact hg rfl

end SharedExpr

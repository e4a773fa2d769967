import SharedExpr.Proofs.Expr.Nesting

/-! Construction of nodes: it always answers a node, and only adds nodes that may be added. -/
namespace SharedExpr

variable {α : Type} [Scalar α] {d : Dag α}

namespace Application

/-- The rules always come to an end, so that no application is added against them. -/
theorem buildAt?_eq_build (h : d.Lawful) {app : Application}
    (hx : ∀ x ∈ app.operands, x < d.count) :
    app.buildAt? nestingLimit d = (some (app.build d).1, (app.build d).2) := by
  obtain ⟨-, id, hid, -⟩ := answers h hx nestingLimit (Nat.le_refl _)
  rw [build]
  rcases hr : (app.buildAt? nestingLimit d : Option NodeId × Dag α) with ⟨o, d₁⟩
  rw [hr] at hid
  cases hid
  rfl

/-- Applying an operator adds at most five nodes, those of the rules included. -/
theorem count_build_le (h : d.Lawful) {app : Application} (hx : ∀ x ∈ app.operands, x < d.count) :
    (app.build d).2.count ≤ d.count + 5 := by
  obtain ⟨-, id, -, -, hc, -⟩ := answers h hx nestingLimit (Nat.le_refl _)
  rwa [buildAt?_eq_build h hx] at hc

/-- Applying an operator answers a node and only adds nodes that may be added. -/
theorem adds_build (h : d.Lawful) {app : Application} (hx : ∀ x ∈ app.operands, x < d.count) :
    d.Adds ((app.build d).1 = ·) (app.build d).2 := by
  have ha := adds_buildAt? nestingLimit h hx
  rw [buildAt?_eq_build h hx] at ha
  exact ⟨ha.grows, fun id hid => ha.lt id (congrArg some hid)⟩

theorem adds_lift_build (h : d.Lawful) {app : Application} (hx : ∀ x ∈ app.operands, x < d.count) :
    d.Adds (((liftM (app.build : Build α NodeId) : OptionT (Build α) NodeId) d).1 = some ·)
      ((liftM (app.build : Build α NodeId) : OptionT (Build α) NodeId) d).2 := by
  have ha := adds_build h hx
  exact ⟨ha.grows, fun id hid => ha.lt id (Option.some.inj hid)⟩

end Application

namespace Expr

theorem adds_build (h : d.Lawful) {e : Expr α} (he : ∀ id ∈ e.refs, id < d.count) :
    d.Adds ((e.build d).1 = ·) (e.build d).2 := by
  have hb := adds_buildWith (fun app => liftM (app.build : Build α NodeId))
    (fun _ _ h hx => Application.adds_lift_build h hx) e h he
  rw [buildWith_lift] at hb
  exact ⟨hb.grows, fun id hid => hb.lt id (congrArg some hid)⟩

/-- How many nodes the building of an expression adds at most: one for a literal or a variable, and
five for an operator. -/
def work : Expr α → Nat
  | ref _ => 0
  | lit _ | var _ => 1
  | unary _ x => x.work + 5
  | binary _ x y => x.work + y.work + 5

theorem count_build_le (h : d.Lawful) {e : Expr α} (he : ∀ id ∈ e.refs, id < d.count) :
    (e.build d).2.count ≤ d.count + e.work := by
  induction e generalizing d with
  | ref => exact Nat.le_refl _
  | lit | var => exact Dag.count_intern_le h.wellFormed _
  | unary op x ih =>
    have hx := adds_build (e := x) h he
    have hlt : ∀ a ∈ (Application.unary op (x.build d).1).operands, a < (x.build d).2.count := by
      simpa [Application.operands] using hx.lt _ rfl
    have happ := Application.count_build_le (hx.grows.lawful h) hlt
    have hle := ih h he
    show ((Application.unary op (x.build d).1).build (x.build d).2).2.count ≤ _
    simp only [work]
    omega
  | binary op x y ihx ihy =>
    have hex : ∀ id ∈ x.refs, id < d.count := fun id hid => he id (List.mem_append_left _ hid)
    have hx := adds_build h hex
    have h₁ := hx.grows.lawful h
    have hey : ∀ id ∈ y.refs, id < (x.build d).2.count := fun id hid =>
      (hx.grows.extends_ h).lt_count (he id (List.mem_append_right _ hid))
    have hy := adds_build h₁ hey
    have hlt : ∀ a ∈ (Application.binary op (x.build d).1 (y.build (x.build d).2).1).operands,
        a < (y.build (x.build d).2).2.count :=
      Application.operands_lt ((hy.grows.extends_ h₁).lt_count (hx.lt _ rfl)) (hy.lt _ rfl)
    have happ := Application.count_build_le (hy.grows.lawful h₁) hlt
    have hlex := ihx h hex
    have hley := ihy h₁ hey
    show ((Application.binary op (x.build d).1 (y.build (x.build d).2).1).build
      (y.build (x.build d).2).2).2.count ≤ _
    simp only [work]
    omega

theorem buildWith_congr {f g : Application → OptionT (Build α) NodeId}
    (hadds : ∀ (d : Dag α) (app : Application), d.Lawful → (∀ x ∈ app.operands, x < d.count) →
      d.Adds ((g app d).1 = some ·) (g app d).2)
    (hfg : ∀ (d : Dag α) (app : Application), d.Lawful → (∀ x ∈ app.operands, x < d.count) →
      f app d = g app d)
    (e : Expr α) (h : d.Lawful) (he : ∀ id ∈ e.refs, id < d.count) :
    e.buildWith f d = e.buildWith g d := by
  induction e generalizing d with
  | ref | lit | var => rfl
  | unary op x ih =>
    have hx := adds_buildWith g hadds x h he
    rw [buildWith_unary, buildWith_unary, ih h he]
    rcases hs : (x.buildWith g d : Option NodeId × Dag α) with ⟨o, d₁⟩
    rw [hs] at hx
    cases o with
    | none => rfl
    | some a =>
      exact hfg d₁ _ (hx.grows.lawful h) (by simpa [Application.operands] using hx.lt a rfl)
  | binary op x y ihx ihy =>
    have hex : ∀ id ∈ x.refs, id < d.count := fun id hid => he id (List.mem_append_left _ hid)
    have hx := adds_buildWith g hadds x h hex
    rw [buildWith_binary, buildWith_binary, ihx h hex]
    rcases hs : (x.buildWith g d : Option NodeId × Dag α) with ⟨o, d₁⟩
    rw [hs] at hx
    cases o with
    | none => rfl
    | some a =>
      have h₁ := hx.grows.lawful h
      have hey : ∀ id ∈ y.refs, id < d₁.count := fun id hid =>
        (hx.grows.extends_ h).lt_count (he id (List.mem_append_right _ hid))
      have hy := adds_buildWith g hadds y h₁ hey
      dsimp only
      rw [ihy h₁ hey]
      rcases ht : (y.buildWith g d₁ : Option NodeId × Dag α) with ⟨o, d₂⟩
      rw [ht] at hy
      cases o with
      | none => rfl
      | some b =>
        refine hfg d₂ _ (hy.grows.lawful h₁) ?_
        simpa [Application.operands] using
          ⟨(hy.grows.extends_ h₁).lt_count (hx.lt a rfl), hy.lt b rfl⟩

theorem build?_eq (h : d.Lawful) {e : Expr α} (he : ∀ id ∈ e.refs, id < d.count) :
    e.build? d = (some (e.build d).1, (e.build d).2) := by
  rw [build?, build, ← buildWith_lift]
  refine buildWith_congr (fun _ _ h hx => Application.adds_lift_build h hx)
    (fun d app _ hx => ?_) e h he
  have hall : app.operands.all d.contains := by simpa [Dag.contains] using hx
  rw [Application.build?, if_pos hall]
  rfl

end Expr

end SharedExpr

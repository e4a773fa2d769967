import SharedExpr.Proofs.Expr.NormalForm

/-! Building of expressions: it only adds nodes that may be added, and answers a node. -/
namespace SharedExpr

variable {α : Type} [Scalar α] {d : Dag α}

namespace Dag

/-- A step that grows a graph and answers nodes of the result, if it answers any. -/
structure Adds (d : Dag α) (answer : NodeId → Prop) (d' : Dag α) : Prop where
  grows : d.Grows d'
  lt : ∀ id, answer id → id < d'.count

theorem Adds.trans {d₁ d₂ : Dag α} {answer : NodeId → Prop} (h : d.Grows d₁)
    (h' : d₁.Adds answer d₂) : d.Adds answer d₂ :=
  ⟨h.trans h'.grows, h'.lt⟩

theorem adds_intern (h : d.Lawful) {node : Node α} (hn : d.Admits node) :
    d.Adds ((d.intern node).1 = ·) (d.intern node).2 where
  grows := .intern (.refl d) hn
  lt _ hid := hid ▸ lt_of_node? (node?_intern h.wellFormed node)

theorem normal_normal (value : α) : Scalar.normal (Scalar.normal value) = Scalar.normal value := by
  by_cases h : Scalar.same value (Scalar.zero : α)
  · simp [Scalar.normal, h]
  · simp [Scalar.normal, h]

theorem adds_lit (h : d.Lawful) (value : α) :
    d.Adds ((Build.lit value d).1 = ·) (Build.lit value d).2 :=
  adds_intern h (.lit (normal_normal value))

theorem adds_var (h : d.Lawful) (name : String) :
    d.Adds ((Build.var name d).1 = ·) (Build.var name d).2 :=
  adds_intern h (.var name)

end Dag

theorem bind_apply {β γ : Type} (f : OptionT (Build α) β) (g : β → OptionT (Build α) γ)
    (d : Dag α) :
    (f >>= g) d =
      match (f d : Option β × Dag α) with
      | (some b, d) => g b d
      | (none, d) => (none, d) := by
  simp only [bind, OptionT.bind, OptionT.mk, StateT.bind]
  cases f d with
  | mk o d1 => cases o <;> rfl

namespace Expr

variable (f : Application → OptionT (Build α) NodeId)

theorem buildWith_unary (op : Unary) (x : Expr α) (d : Dag α) :
    (unary op x).buildWith f d =
      match (x.buildWith f d : Option NodeId × Dag α) with
      | (some a, d) => f (.unary op a) d
      | (none, d) => (none, d) := by
  rw [buildWith, bind_apply]
  rcases (x.buildWith f d : Option NodeId × Dag α) with ⟨o, d₁⟩
  cases o <;> rfl

theorem buildWith_binary (op : Binary) (x y : Expr α) (d : Dag α) :
    (binary op x y).buildWith f d =
      match (x.buildWith f d : Option NodeId × Dag α) with
      | (some a, d) =>
        match (y.buildWith f d : Option NodeId × Dag α) with
        | (some b, d) => f (.binary op a b) d
        | (none, d) => (none, d)
      | (none, d) => (none, d) := by
  rw [buildWith, bind_apply]
  rcases (x.buildWith f d : Option NodeId × Dag α) with ⟨o, d₁⟩
  cases o with
  | none => rfl
  | some a =>
    dsimp only
    rw [bind_apply]
    rcases (y.buildWith f d₁ : Option NodeId × Dag α) with ⟨o, d₂⟩
    cases o <;> rfl

theorem buildWith_unary_eq_some {f : Application → OptionT (Build α) NodeId} {op : Unary}
    {x : Expr α} {d d' : Dag α} {id : NodeId} (h : (unary op x).buildWith f d = (some id, d')) :
    ∃ a d₁, x.buildWith f d = (some a, d₁) ∧ f (.unary op a) d₁ = (some id, d') := by
  rw [buildWith_unary] at h
  rcases hx : (x.buildWith f d : Option NodeId × Dag α) with ⟨o, d₁⟩
  rw [hx] at h
  cases o with
  | none => cases h
  | some a => exact ⟨a, d₁, rfl, h⟩

theorem buildWith_binary_eq_some {f : Application → OptionT (Build α) NodeId} {op : Binary}
    {x y : Expr α} {d d' : Dag α} {id : NodeId}
    (h : (binary op x y).buildWith f d = (some id, d')) :
    ∃ a b d₁ d₂, x.buildWith f d = (some a, d₁) ∧ y.buildWith f d₁ = (some b, d₂) ∧
      f (.binary op a b) d₂ = (some id, d') := by
  rw [buildWith_binary] at h
  rcases hx : (x.buildWith f d : Option NodeId × Dag α) with ⟨o, d₁⟩
  rw [hx] at h
  cases o with
  | none => cases h
  | some a =>
    dsimp only at h
    rcases hy : (y.buildWith f d₁ : Option NodeId × Dag α) with ⟨o, d₂⟩
    rw [hy] at h
    cases o with
    | none => cases h
    | some b => exact ⟨a, b, d₁, d₂, rfl, hy, h⟩

theorem buildWith_lift (g : Application → Build α NodeId) (e : Expr α) (d : Dag α) :
    e.buildWith (fun app => (liftM (g app) : OptionT (Build α) NodeId)) d =
      (some (e.buildWith g d).1, (e.buildWith g d).2) := by
  induction e generalizing d with
  | ref | lit | var => rfl
  | unary op x ih =>
    rw [buildWith_unary, ih]
    rfl
  | binary op x y ihx ihy =>
    rw [buildWith_binary, ihx]
    dsimp only
    rw [ihy]
    rfl

/-- An expression only adds nodes if the applications of its operators do. -/
theorem adds_buildWith
    (hf : ∀ (d : Dag α) (app : Application), d.Lawful → (∀ x ∈ app.operands, x < d.count) →
      d.Adds ((f app d).1 = some ·) (f app d).2)
    (e : Expr α) (h : d.Lawful) (he : ∀ id ∈ e.refs, id < d.count) :
    d.Adds ((e.buildWith f d).1 = some ·) (e.buildWith f d).2 := by
  induction e generalizing d with
  | ref id =>
    refine ⟨.refl d, fun i hi => ?_⟩
    obtain rfl : id = i := Option.some.inj hi
    exact he id (by simp [refs])
  | lit value =>
    have ha := Dag.adds_lit h value
    exact ⟨ha.grows, fun i hi => ha.lt i (Option.some.inj hi)⟩
  | var name =>
    have ha := Dag.adds_var h name
    exact ⟨ha.grows, fun i hi => ha.lt i (Option.some.inj hi)⟩
  | unary op x ih =>
    have hx := ih h he
    rw [buildWith_unary]
    rcases hr : (x.buildWith f d : Option NodeId × Dag α) with ⟨o, d₁⟩
    rw [hr] at hx
    cases o with
    | none => exact ⟨hx.grows, by simp⟩
    | some a =>
      have ha := hf d₁ (.unary op a) (hx.grows.lawful h)
        (by simpa [Application.operands] using hx.lt a rfl)
      exact .trans hx.grows ha
  | binary op x y ihx ihy =>
    have hx := ihx h fun id hid => he id (List.mem_append_left _ hid)
    rw [buildWith_binary]
    rcases hr : (x.buildWith f d : Option NodeId × Dag α) with ⟨o, d₁⟩
    rw [hr] at hx
    cases o with
    | none => exact ⟨hx.grows, by simp⟩
    | some a =>
      have h₁ := hx.grows.lawful h
      have hxe := hx.grows.extends_ h
      have hy := ihy h₁ fun id hid => hxe.lt_count (he id (List.mem_append_right _ hid))
      dsimp only
      rcases hs : (y.buildWith f d₁ : Option NodeId × Dag α) with ⟨o, d₂⟩
      rw [hs] at hy
      cases o with
      | none => exact ⟨hx.grows.trans hy.grows, by simp⟩
      | some b =>
        have hye := hy.grows.extends_ h₁
        have hab := hf d₂ (.binary op a b) (hy.grows.lawful h₁)
          (by simpa [Application.operands] using ⟨hye.lt_count (hx.lt a rfl), hy.lt b rfl⟩)
        exact .trans (hx.grows.trans hy.grows) hab

end Expr

namespace Application

theorem buildAt?_succ (depth : Nat) (app : Application) (d : Dag α) :
    app.buildAt? (depth + 1) d =
      match (app.arrange d).replacement? d with
      | none => (some (d.intern (app.arrange d).node).1, (d.intern (app.arrange d).node).2)
      | some e => e.buildWith (buildAt? depth) d :=
  rfl

theorem adds_buildAt? (depth : Nat) (h : d.Lawful) {app : Application}
    (hx : ∀ x ∈ app.operands, x < d.count) :
    d.Adds ((app.buildAt? depth d).1 = some ·) (app.buildAt? depth d).2 := by
  induction depth generalizing d app with
  | zero => exact ⟨.refl d, fun id hid => by cases hid⟩
  | succ depth ih =>
    have hx' : ∀ x ∈ (app.arrange d).operands, x < d.count :=
      fun x hm => hx x ((mem_operands_arrange d app x).1 hm)
    rw [buildAt?_succ]
    cases hr : (app.arrange d).replacement? d with
    | none =>
      have ha := Dag.adds_intern h (admits_of_replacement? h hx hr)
      exact ⟨ha.grows, fun id hid => ha.lt id (Option.some.inj hid)⟩
    | some e =>
      have he := (rewrite_of_replacement? hr).refs_lt h.wellFormed hx'
      exact Expr.adds_buildWith _ (fun d app h hx => ih h hx) e h he

end Application

end SharedExpr

import SharedExpr.Access.Rules
import SharedExpr.Proofs.Access.Table
import SharedExpr.Proofs.Gradient.Growth

/-! The rules and the building of expressions make no access out of range, and come to an end. -/
namespace SharedExpr.Access

variable {α : Type} [Scalar α] {d : Dag α} {x y : NodeId}

namespace UnaryRule

/-- With its accesses a rule finds what it finds without them. -/
def Agrees (rule : UnaryRule α) (rule' : SharedExpr.UnaryRule α) : Prop :=
  ∀ {d : Dag α} {x : NodeId}, d.Lawful → x < d.count → rule d x = some (rule' d x)

theorem agrees_fold (op : Unary) : (fold (α := α) op).Agrees (.fold op) := by
  intro d x _ hx
  rw [fold, Dag.literalAt_eq hx]
  rfl

theorem agrees_cancel : (cancel (α := α)).Agrees .cancel := by
  intro d x h hx
  rw [cancel, Dag.negatedAt_eq h hx]
  rfl

theorem agrees_all (op : Unary) :
    List.Forall₂ Agrees (all (α := α) op) (SharedExpr.UnaryRule.all op) := by
  cases op with
  | neg => exact .cons (agrees_fold .neg) (.cons agrees_cancel .nil)
  | exp | log | sin | cos => exact .cons (agrees_fold _) .nil

end UnaryRule

namespace BinaryRule

def Agrees (rule : BinaryRule α) (rule' : SharedExpr.BinaryRule α) : Prop :=
  ∀ {d : Dag α} {x y : NodeId}, d.Lawful → x < d.count → y < d.count →
    rule d x y = some (rule' d x y)

theorem agrees_fold (op : Binary) : (fold (α := α) op).Agrees (.fold op) := by
  intro d x y _ hx hy
  rw [fold, SharedExpr.BinaryRule.fold, Dag.literalAt_eq hx, Dag.literalAt_eq hy]
  cases d.literal? x with
  | none => rfl
  | some a => cases d.literal? y <;> rfl

theorem agrees_blind (rule : SharedExpr.BinaryRule α) : (blind rule).Agrees rule :=
  fun _ _ _ => rfl

theorem agrees_zeroPlus : (zeroPlus (α := α)).Agrees .zeroPlus := by
  intro d x y _ hx _
  rw [zeroPlus, Dag.hasValueAt_eq hx]
  rfl

theorem agrees_negPlus : (negPlus (α := α)).Agrees .negPlus := by
  intro d x y h hx _
  rw [negPlus, Dag.negatedAt_eq h hx]
  rfl

theorem agrees_plusNeg : (plusNeg (α := α)).Agrees .plusNeg := by
  intro d x y h _ hy
  rw [plusNeg, Dag.negatedAt_eq h hy]
  rfl

theorem agrees_zeroMinus : (zeroMinus (α := α)).Agrees .zeroMinus := by
  intro d x y _ hx _
  rw [zeroMinus, Dag.hasValueAt_eq hx]
  rfl

theorem agrees_minusLiteral : (minusLiteral (α := α)).Agrees .minusLiteral := by
  intro d x y _ _ hy
  rw [minusLiteral, Dag.literalAt_eq hy]
  rfl

theorem agrees_minusNeg : (minusNeg (α := α)).Agrees .minusNeg := by
  intro d x y h _ hy
  rw [minusNeg, Dag.negatedAt_eq h hy]
  rfl

theorem agrees_unitTimes : (unitTimes (α := α)).Agrees .unitTimes := by
  intro d x y _ hx _
  rw [unitTimes, SharedExpr.BinaryRule.unitTimes]
  simp only [Dag.hasValueAt_eq hx, Option.bind_eq_bind, Option.bind_some]
  split
  · rfl
  · split
    · rfl
    · split <;> rfl

theorem agrees_zeroOver : (zeroOver (α := α)).Agrees .zeroOver := by
  intro d x y _ hx _
  rw [zeroOver, Dag.hasValueAt_eq hx]
  rfl

theorem agrees_powZero : (powZero (α := α)).Agrees .powZero := by
  intro d x y _ _ hy
  rw [powZero, Dag.hasValueAt_eq hy]
  rfl

theorem agrees_powOne : (powOne (α := α)).Agrees .powOne := by
  intro d x y _ _ hy
  rw [powOne, Dag.hasValueAt_eq hy]
  rfl

theorem prefixedAt_eq (h : d.Lawful) (op : Binary) (hx : x < d.count) :
    prefixedAt d op x = some (SharedExpr.BinaryRule.prefixed? d op x) := by
  obtain ⟨⟨label, operands⟩, hn⟩ := Dag.exists_node? hx
  rw [prefixedAt, SharedExpr.BinaryRule.prefixed?, Dag.labelAt_of_node? hn,
    Dag.operandsAt_of_node? h.wellFormed hn, hn]
  cases h.admits hn with
  | lit | var | unary | gradient => rfl
  | @binary op' a b ha hb =>
    by_cases hop : op' = op
    · subst hop
      simp [Dag.isLiteralAt_eq ha]
    · simp [hop]

theorem agrees_regroup (op : Binary) : (regroup (α := α) op).Agrees (.regroup op) := by
  intro d x y h hx hy
  rw [regroup, SharedExpr.BinaryRule.regroup, Dag.isLiteralAt_eq hx, prefixedAt_eq h op hx,
    prefixedAt_eq h op hy]
  simp only [Option.bind_eq_bind, Option.bind_some]
  rcases SharedExpr.BinaryRule.prefixed? d op x with _ | ⟨a, b⟩
  · rcases SharedExpr.BinaryRule.prefixed? d op y with _ | ⟨c, z⟩
    · rfl
    · cases d.isLiteral x <;> rfl
  · rcases SharedExpr.BinaryRule.prefixed? d op y with _ | ⟨c, z⟩ <;> rfl

theorem agrees_all (op : Binary) :
    List.Forall₂ Agrees (all (α := α) op) (SharedExpr.BinaryRule.all op) := by
  cases op with
  | add =>
    exact .cons (agrees_fold _) <| .cons agrees_zeroPlus <| .cons (agrees_blind _) <|
      .cons agrees_negPlus <| .cons agrees_plusNeg <| .cons (agrees_regroup _) .nil
  | sub =>
    exact .cons (agrees_fold _) <| .cons (agrees_blind _) <| .cons agrees_zeroMinus <|
      .cons agrees_minusLiteral <| .cons agrees_minusNeg .nil
  | mul =>
    exact .cons (agrees_fold _) <| .cons agrees_unitTimes <| .cons (agrees_blind _) <|
      .cons (agrees_regroup _) .nil
  | div => exact .cons (agrees_fold _) <| .cons agrees_zeroOver <| .cons (agrees_blind _) .nil
  | pow => exact .cons (agrees_fold _) <| .cons agrees_powZero <| .cons agrees_powOne .nil

end BinaryRule

theorem findSomeM?_eq {β γ δ : Type} {R : β → γ → Prop} {f : β → Access (Option δ)}
    {g : γ → Option δ} (hfg : ∀ b c, R b c → f b = some (g c)) {bs : List β} {cs : List γ}
    (h : List.Forall₂ R bs cs) : bs.findSomeM? f = some (cs.findSome? g) := by
  induction h with
  | nil => rfl
  | @cons b c bs cs hbc _ ih =>
    rw [List.findSomeM?, hfg b c hbc, List.findSome?_cons]
    cases hg : g c with
    | some out => rfl
    | none => exact ih

theorem replacement_eq (h : d.Lawful) {app : Application} (hx : ∀ x ∈ app.operands, x < d.count) :
    replacement d app = some (app.replacement? d) := by
  cases app with
  | unary op x =>
    have hlt := hx x (by simp [Application.operands])
    exact findSomeM?_eq (fun _ _ ha => ha h hlt) (UnaryRule.agrees_all op)
  | binary op x y =>
    have hx' := hx x (by simp [Application.operands])
    have hy' := hx y (by simp [Application.operands])
    exact findSomeM?_eq (fun _ _ ha => ha h hx' hy') (BinaryRule.agrees_all op)

theorem arrange_eq {app : Application} (hx : ∀ x ∈ app.operands, x < d.count) :
    arrange d app = some (app.arrange d) := by
  cases app with
  | unary op x => rfl
  | binary op x y =>
    have hx' := hx x (by simp [Application.operands])
    have hy' := hx y (by simp [Application.operands])
    have hswaps : swaps d x y = some (Application.swaps d x y) := by
      rw [swaps, Application.swaps, Dag.isLiteralAt_eq hx', Dag.isLiteralAt_eq hy']
      cases d.isLiteral x <;> cases d.isLiteral y <;> simp
    rw [arrange, Application.arrange, hswaps]
    cases op.commutes <;> cases Application.swaps d x y <;> rfl

theorem buildWith_eq {g : Application → Dag α → Access (NodeId × Dag α)}
    {f : Application → OptionT (SharedExpr.Build α) NodeId}
    (hadds : ∀ (d : Dag α) (app : Application), d.Lawful → (∀ x ∈ app.operands, x < d.count) →
      d.Adds ((f app d).1 = some ·) (f app d).2)
    (hf : ∀ {d d' : Dag α} {app : Application} {id : NodeId}, d.Lawful →
      (∀ x ∈ app.operands, x < d.count) → f app d = (some id, d') → g app d = some (id, d'))
    (h : d.Lawful) {e : Expr α} (he : ∀ id ∈ e.refs, id < d.count) {id : NodeId} {d' : Dag α}
    (hb : e.buildWith f d = (some id, d')) : buildWith g e d = some (id, d') := by
  induction e generalizing d id d' with
  | ref id' =>
    cases hb
    rfl
  | lit value =>
    cases hb
    rw [buildWith]
    exact Dag.internAt_eq h.wellFormed (by simp)
  | var name =>
    cases hb
    rw [buildWith]
    exact Dag.internAt_eq h.wellFormed (by simp)
  | unary op x ih =>
    obtain ⟨a, d₁, hx, hop⟩ := Expr.buildWith_unary_eq_some hb
    have ha := Expr.adds_buildWith f hadds x h he
    rw [hx] at ha
    rw [buildWith, ih h he hx]
    exact hf (ha.grows.lawful h) (by simpa [Application.operands] using ha.lt a rfl) hop
  | binary op x y ihx ihy =>
    obtain ⟨a, b, d₁, d₂, hx, hy, hop⟩ := Expr.buildWith_binary_eq_some hb
    have hex : ∀ id ∈ x.refs, id < d.count := fun id hid => he id (List.mem_append_left _ hid)
    have ha := Expr.adds_buildWith f hadds x h hex
    rw [hx] at ha
    have h₁ := ha.grows.lawful h
    have hey : ∀ id ∈ y.refs, id < d₁.count := fun id hid =>
      (ha.grows.extends_ h).lt_count (he id (List.mem_append_right _ hid))
    have hb := Expr.adds_buildWith f hadds y h₁ hey
    rw [hy] at hb
    rw [buildWith, ihx h hex hx]
    simp only [Option.bind_eq_bind, Option.bind_some, ihy h₁ hey hy]
    exact hf (hb.grows.lawful h₁)
      (Application.operands_lt ((hb.grows.extends_ h₁).lt_count (ha.lt a rfl)) (hb.lt b rfl)) hop

theorem applyAt_of_buildAt? (depth : Nat) (h : d.Lawful) {app : Application}
    (hx : ∀ x ∈ app.operands, x < d.count) {id : NodeId} {d' : Dag α}
    (hb : app.buildAt? depth d = (some id, d')) : applyAt depth app d = some (id, d') := by
  induction depth generalizing d app id d' with
  | zero => cases hb
  | succ depth ih =>
    have hx' : ∀ x ∈ (app.arrange d).operands, x < d.count :=
      fun x hm => hx x ((Application.mem_operands_arrange d app x).1 hm)
    rw [Application.buildAt?_succ] at hb
    rw [applyAt, arrange_eq hx]
    simp only [Option.bind_eq_bind, Option.bind_some, replacement_eq h hx']
    cases hr : (app.arrange d).replacement? d with
    | none =>
      rw [hr] at hb
      cases hb
      have hnode : ∀ x ∈ ((app.arrange d).node : Node α).operands, x < d.count := by
        cases hop : app.arrange d <;> rw [hop] at hx' <;> exact hx'
      exact Dag.internAt_eq h.wellFormed hnode
    | some e =>
      rw [hr] at hb
      have he := (Application.rewrite_of_replacement? hr).refs_lt h.wellFormed hx'
      exact buildWith_eq (fun _ _ h hx => Application.adds_buildAt? depth h hx)
        (fun h hx hb => ih h hx hb) h he hb

/-- The rules come to an end, and make no access out of range. -/
theorem apply_eq (h : d.Lawful) {app : Application} (hx : ∀ x ∈ app.operands, x < d.count) :
    apply app d = some (app.build d) :=
  applyAt_of_buildAt? _ h hx (Application.buildAt?_eq_build h hx)

theorem build_eq (h : d.Lawful) {e : Expr α} (he : ∀ id ∈ e.refs, id < d.count) :
    build e d = some (e.build d) := by
  refine buildWith_eq (fun _ _ h hx => Application.adds_lift_build h hx)
    (fun h hx hb => ?_) h he (Expr.buildWith_lift Application.build e d)
  rw [apply_eq h hx]
  cases hb
  rfl

theorem tryApply_eq (h : d.Lawful) (app : Application) :
    tryApply app d = some (app.tryBuild d) := by
  rw [tryApply, Application.tryBuild]
  cases hc : app.operands.forM d.check with
  | error fault => rfl
  | ok =>
    have hx : ∀ x ∈ app.operands, x < d.count := fun x hm =>
      Dag.lt_of_check (Dag.forM_eq_ok_iff.1 hc x hm)
    dsimp only
    rw [apply_eq h hx]
    rfl

end SharedExpr.Access

import SharedExpr.Proofs.Expr.Building

/-! The rules nest to a bounded depth, so that every application is answered under them, and they
add at most five nodes. -/
namespace SharedExpr

variable {α : Type} [Scalar α] {d : Dag α} {P Q R : Dag α → NodeId → Prop}

/-- A step that grows a graph and answers a node of which `P` holds. -/
structure Dag.Answer (d : Dag α) (P : Dag α → NodeId → Prop) (r : Option NodeId × Dag α) :
    Prop where
  grows : d.Grows r.2
  exists_id : ∃ id, r.1 = some id ∧ id < r.2.count ∧ P r.2 id

namespace Dag

def AnyNode (_ : Dag α) (_ : NodeId) : Prop :=
  True

def IsLiteral (d : Dag α) (id : NodeId) : Prop :=
  d.isLiteral id

/-- Holds of nodes that are none of an operator with a literal on its left. -/
def Bare (op : Binary) (d : Dag α) (id : NodeId) : Prop :=
  ∀ a b, ¬ d.Prefixed op id a b

/-- Holds of nodes with `P` in graphs of at most so many nodes. -/
def AtMost (bound : Nat) (P : Dag α → NodeId → Prop) (d : Dag α) (id : NodeId) : Prop :=
  d.count ≤ bound ∧ P d id

/-- Holds in graphs of at most so many nodes, and of nodes with `P` if there is one more. -/
def OneMore (bound : Nat) (P : Dag α → NodeId → Prop) (d : Dag α) (id : NodeId) : Prop :=
  d.count ≤ bound ∨ d.AtMost (bound + 1) P id

/-- What holds of a node goes on to hold while the graph grows. -/
def Lasting (P : Dag α → NodeId → Prop) : Prop :=
  ∀ {d d' : Dag α} {id : NodeId}, d.WellFormed → d.Extends d' → id < d.count → P d id → P d' id

theorem lasting_anyNode : Lasting (AnyNode (α := α)) :=
  fun _ _ _ _ => trivial

theorem lasting_isLiteral : Lasting (IsLiteral (α := α)) :=
  fun _ he hid h => (he.isLiteral hid).trans h

theorem lasting_bare (op : Binary) : Lasting (Bare (α := α) op) :=
  fun hw he hid h a b hp => h a b ((he.prefixed_iff hw hid).1 hp)

theorem isLiteral_of_node? {id : NodeId} {value : α} {operands : List NodeId}
    (hn : d.node? id = some ⟨.lit value, operands⟩) : d.isLiteral id := by
  simp [isLiteral, literal?, label?_of_node? hn, Label.literal?]

theorem isLiteral_eq_false_of_node? {id : NodeId} {node : Node α} (hn : d.node? id = some node)
    (hl : node.label.literal? = none) : d.isLiteral id = false := by
  simp [isLiteral, literal?, label?_of_node? hn, hl]

theorem bare_of_isLiteral {op : Binary} {x : NodeId} (hl : d.isLiteral x) : d.Bare op x := by
  rintro a b ⟨hn, -⟩
  rw [isLiteral_eq_false_of_node? hn rfl] at hl
  cases hl

theorem bare_of_node? {op : Binary} {x : NodeId} {node : Node α} (hn : d.node? x = some node)
    (hl : node.label ≠ .binary op) : d.Bare op x := by
  rintro a b ⟨hp, -⟩
  exact hl (congrArg Node.label (Option.some.inj (hn.symm.trans hp)))

theorem AtMost.oneMore {bound bound' : Nat} (hle : bound ≤ bound') {x : NodeId}
    (h : d.AtMost bound P x) : d.OneMore bound' Q x :=
  Or.inl (Nat.le_trans h.1 hle)

theorem AtMost.any {bound bound' : Nat} (hle : bound ≤ bound') {x : NodeId}
    (h : d.AtMost bound P x) : d.AtMost bound' AnyNode x :=
  ⟨Nat.le_trans h.1 hle, trivial⟩

theorem OneMore.any {bound bound' : Nat} (hle : bound + 1 ≤ bound') {x : NodeId}
    (h : d.OneMore bound P x) : d.AtMost bound' AnyNode x := by
  rcases h with h | h
  · exact ⟨Nat.le_trans (Nat.le_succ_of_le h) hle, trivial⟩
  · exact h.any hle

theorem OneMore.mono {bound bound' : Nat} (hle : bound ≤ bound') {x : NodeId}
    (h : d.OneMore bound P x) : d.OneMore bound' P x := by
  rcases h with h | ⟨h, hP⟩
  · exact Or.inl (Nat.le_trans h hle)
  · exact Or.inr ⟨Nat.le_trans h (Nat.succ_le_succ hle), hP⟩

namespace Lawful

theorem ordered_of_prefixed (h : d.Lawful) {op : Binary} (hop : op.commutes) {x a b : NodeId}
    (hp : d.Prefixed op x a b) : d.Ordered op a b := by
  cases op with
  | add =>
    cases h.normal hp.1 with
    | add ho => exact ho
  | mul =>
    cases h.normal hp.1 with
    | mul ho => exact ho
  | sub | div | pow => cases hop

/-- What a negation negates is neither a literal nor a negation. -/
theorem operand_of_negated? (h : d.Lawful) {x a : NodeId} (hx : d.negated? x = some a) :
    a < d.count ∧ d.isLiteral a = false ∧ d.negated? a = none := by
  obtain ⟨rest, hn⟩ := negated?_eq_some hx
  have ha : a < d.count := h.wellFormed.lt_of_mem_operands hn List.mem_cons_self
  cases h.normal hn with
  | neg hl hneg => exact ⟨ha, hl, (negated?_eq_none_iff h).2 hneg⟩
  | transcendental hop => exact absurd rfl hop

end Lawful

end Dag

/-- Under rules that nest at most `limit` deep, the expression is built as a node with `P`. -/
def Expr.Answers (d : Dag α) (limit : Nat) (P : Dag α → NodeId → Prop) (e : Expr α) : Prop :=
  ∀ depth, limit ≤ depth → d.Answer P (e.buildWith (Application.buildAt? depth) d)

def Application.Answers (d : Dag α) (limit : Nat) (P : Dag α → NodeId → Prop) (app : Application) :
    Prop :=
  ∀ depth, limit ≤ depth → d.Answer P (app.buildAt? depth d)

theorem Dag.Answer.imp {r : Option NodeId × Dag α} (h : d.Answer P r)
    (hPQ : ∀ {d' : Dag α} {id : NodeId}, P d' id → Q d' id) : d.Answer Q r := by
  obtain ⟨hg, id, hid, hlt, hP⟩ := h
  exact ⟨hg, id, hid, hlt, hPQ hP⟩

namespace Expr

theorem answers_ref {id : NodeId} {bound : Nat} (hid : id < d.count) (hb : d.count ≤ bound)
    (hP : P d id) (limit : Nat) : (ref id : Expr α).Answers d limit (Dag.AtMost bound P) :=
  fun _ _ => ⟨.refl d, id, rfl, hid, hb, hP⟩

theorem answers_node {id : NodeId} {bound : Nat} (hid : id < d.count) (hb : d.count ≤ bound)
    (limit : Nat) : (ref id : Expr α).Answers d limit (Dag.OneMore bound P) :=
  fun _ _ => ⟨.refl d, id, rfl, hid, Or.inl hb⟩

theorem answers_lit (h : d.Lawful) (value : α) {bound : Nat} (hb : d.count + 1 ≤ bound)
    (limit : Nat) : (lit value).Answers d limit (Dag.AtMost bound Dag.IsLiteral) := by
  intro depth _
  have ha := Dag.adds_lit h value
  have hn := Dag.node?_intern h.wellFormed (⟨.lit (Scalar.normal value), []⟩ : Node α)
  have hc := Dag.count_intern_le h.wellFormed (⟨.lit (Scalar.normal value), []⟩ : Node α)
  exact ⟨ha.grows, _, rfl, ha.lt _ rfl, Nat.le_trans hc hb, Dag.isLiteral_of_node? hn⟩

theorem Answers.mono {limit limit' : Nat} {e : Expr α} (h : e.Answers d limit P)
    (hle : limit ≤ limit') : e.Answers d limit' P :=
  fun depth hd => h depth (Nat.le_trans hle hd)

theorem Answers.imp {limit : Nat} {e : Expr α} (h : e.Answers d limit P)
    (hPQ : ∀ {d' : Dag α} {id : NodeId}, P d' id → Q d' id) : e.Answers d limit Q :=
  fun depth hd => (h depth hd).imp hPQ

theorem answers_binary (h : d.Lawful) {limit bound : Nat} {op : Binary} {x y : Expr α}
    (hlasting : Dag.Lasting P) (hx : x.Answers d limit (Dag.AtMost bound P))
    (hy : ∀ {d' : Dag α}, d'.Lawful → d.Extends d' → d'.count ≤ bound → y.Answers d' limit Q)
    (happ : ∀ {d' : Dag α} {a b : NodeId}, d'.Lawful → d.Extends d' → a < d'.count →
      b < d'.count → P d' a → Q d' b → (Application.binary op a b).Answers d' limit R) :
    (binary op x y).Answers d limit R := by
  intro depth hd
  rw [buildWith_binary]
  have hxa := hx depth hd
  rcases hr : (x.buildWith (Application.buildAt? depth) d : Option NodeId × Dag α) with ⟨o, d₁⟩
  rw [hr] at hxa
  obtain ⟨hg₁, a, ha, hlta, hb₁, hPa⟩ := hxa
  cases ha
  have h₁ := hg₁.lawful h
  have hyb := hy h₁ (hg₁.extends_ h) hb₁ depth hd
  dsimp only at hyb ⊢
  rcases hs : (y.buildWith (Application.buildAt? depth) d₁ : Option NodeId × Dag α) with ⟨o, d₂⟩
  rw [hs] at hyb
  obtain ⟨hg₂, b, hb, hltb, hQb⟩ := hyb
  cases hb
  have he₂ := hg₂.extends_ h₁
  have hg := hg₁.trans hg₂
  have hab := happ (hg.lawful h) (hg.extends_ h) (he₂.lt_count hlta) hltb
    (hlasting h₁.wellFormed he₂ hlta hPa) hQb depth hd
  exact ⟨hg.trans hab.grows, hab.exists_id⟩

theorem answers_refs {limit : Nat} {op : Binary} {x y : NodeId}
    (h : (Application.binary op x y).Answers d limit P) :
    (binary op (.ref x) (.ref y) : Expr α).Answers d limit P :=
  h

end Expr

namespace Application

/-- An application is answered once it is as a node and as everything that the rules may make of
it. -/
theorem answers_succ (h : d.Lawful) {app : Application} (hx : ∀ x ∈ app.operands, x < d.count)
    {limit : Nat}
    (hnode : ∀ {d' : Dag α} {id : NodeId}, d'.count ≤ d.count + 1 →
      d'.node? id = some (app.arrange d).node → P d' id)
    (he : ∀ e, Rewrite d (app.arrange d) e → e.Answers d limit P) :
    app.Answers d (limit + 1) P := by
  intro depth hd
  obtain ⟨depth, rfl⟩ : ∃ n, depth = n + 1 := ⟨depth - 1, by omega⟩
  rw [buildAt?_succ]
  cases hr : (app.arrange d).replacement? d with
  | none =>
    have ha := Dag.adds_intern h (admits_of_replacement? h hx hr)
    exact ⟨ha.grows, _, rfl, ha.lt _ rfl, hnode (Dag.count_intern_le h.wellFormed _)
      (Dag.node?_intern h.wellFormed _)⟩
  | some e => exact he e (rewrite_of_replacement? hr) depth (by omega)

theorem answers_fold (h : d.Lawful) {app : Application} (hl : ∀ x ∈ app.operands, d.isLiteral x)
    {bound : Nat} (hb : d.count + 1 ≤ bound) (limit : Nat) :
    app.Answers d (limit + 1) (Dag.AtMost bound Dag.IsLiteral) := by
  intro depth hd
  obtain ⟨depth, rfl⟩ : ∃ n, depth = n + 1 := ⟨depth - 1, by omega⟩
  have hl' : ∀ x ∈ (app.arrange d).operands, d.isLiteral x :=
    fun x hm => hl x ((mem_operands_arrange d app x).1 hm)
  obtain ⟨value, hv⟩ := replacement?_of_literals hl'
  rw [buildAt?_succ, hv]
  exact Expr.answers_lit h value hb depth depth (Nat.le_refl _)

theorem Answers.mono {limit limit' : Nat} {app : Application} (h : app.Answers d limit P)
    (hle : limit ≤ limit') : app.Answers d limit' P :=
  fun depth hd => h depth (Nat.le_trans hle hd)

theorem Answers.imp {limit : Nat} {app : Application} (h : app.Answers d limit P)
    (hPQ : ∀ {d' : Dag α} {id : NodeId}, P d' id → Q d' id) : app.Answers d limit Q :=
  fun depth hd => (h depth hd).imp hPQ

theorem arrange_cases (d : Dag α) (op : Binary) (x y : NodeId) :
    (binary op x y).arrange d = .binary op x y ∨ (binary op x y).arrange d = .binary op y x := by
  rw [arrange]
  split
  · exact Or.inr rfl
  · exact Or.inl rfl

theorem arrange_of_not_swaps {op : Binary} {x y : NodeId} (hs : swaps d x y = false) :
    (binary op x y).arrange d = .binary op x y := by
  simp [arrange, hs]

theorem arrange_of_not_commutes {op : Binary} (hop : op.commutes = false) (x y : NodeId) :
    (binary op x y).arrange d = .binary op x y := by
  simp [arrange, hop]

/-- Unless both are literals, the operands of a sum or a product are put in the same order. -/
theorem arrange_swap {op : Binary} (hop : op.commutes) {x y : NodeId}
    (hl : ¬ (d.isLiteral x ∧ d.isLiteral y)) :
    (binary op y x).arrange d = (binary op x y).arrange d := by
  rw [arrange, arrange, swaps, swaps, hop]
  cases hlx : d.isLiteral x with
  | true =>
    have hly : d.isLiteral y = false := by simpa [hlx] using hl
    simp [hly]
  | false =>
    cases hly : d.isLiteral y with
    | true => simp
    | false =>
      rcases Nat.lt_trichotomy x y with hlt | rfl | hlt
      · simp [hlt, Nat.lt_asymm hlt]
      · rfl
      · simp [hlt, Nat.lt_asymm hlt]

theorem buildAt?_swap {op : Binary} (hop : op.commutes) {x y : NodeId}
    (hl : ¬ (d.isLiteral x ∧ d.isLiteral y)) (depth : Nat) :
    (binary op y x).buildAt? depth d = (binary op x y).buildAt? depth d := by
  cases depth with
  | zero => rfl
  | succ depth => rw [buildAt?_succ, buildAt?_succ, arrange_swap hop hl]

theorem operands_lt {op : Binary} {x y : NodeId} (hx : x < d.count) (hy : y < d.count) :
    ∀ z ∈ (binary op x y).operands, z < d.count := by
  simpa [operands] using ⟨hx, hy⟩

theorem operand_lt (op : Unary) {x : NodeId} (hx : x < d.count) :
    ∀ z ∈ (unary op x).operands, z < d.count := by
  simpa [operands] using hx

variable {x y : NodeId}

/-- A unary operator needs no nesting, and what it adds is no sum or product. -/
theorem answers_unary (h : d.Lawful) (op : Unary) (hx : x < d.count) (op' : Binary) :
    (unary op x).Answers d 1 (Dag.OneMore d.count (Dag.Bare op')) := by
  refine answers_succ h (by simpa [operands] using hx)
    (fun hc hn => Or.inr ⟨hc, Dag.bare_of_node? hn (by simp [arrange, node])⟩) fun e he => ?_
  cases he with
  | foldUnary =>
    exact (Expr.answers_lit h _ (Nat.le_refl _) 0).imp fun ha =>
      Or.inr ⟨ha.1, Dag.bare_of_isLiteral ha.2⟩
  | negNeg ha => exact Expr.answers_node (h.operand_of_negated? ha).1 (Nat.le_refl _) 0

theorem answers_neg (h : d.Lawful) (hx : x < d.count) (op' : Binary) :
    (Expr.unary .neg (.ref x) : Expr α).Answers d 1 (Dag.OneMore d.count (Dag.Bare op')) :=
  answers_unary h .neg hx op'

theorem answers_pow (h : d.Lawful) (hx : x < d.count) (hy : y < d.count) :
    (binary .pow x y).Answers d 1 (Dag.AtMost (d.count + 1) Dag.AnyNode) := by
  refine answers_succ h (operands_lt hx hy) (fun hc _ => ⟨hc, trivial⟩) fun e he => ?_
  rw [arrange_of_not_commutes rfl] at he
  cases he with
  | foldBinary | powZero =>
    exact (Expr.answers_lit h _ (Nat.le_refl _) 0).imp (Dag.AtMost.any (Nat.le_refl _))
  | powOne => exact Expr.answers_ref hx (Nat.le_succ _) trivial 0
  | regroup hop => cases hop

theorem answers_div (h : d.Lawful) (hx : x < d.count) (hy : y < d.count) :
    (binary .div x y).Answers d 1 (Dag.AtMost (d.count + 1) Dag.AnyNode) := by
  refine answers_succ h (operands_lt hx hy) (fun hc _ => ⟨hc, trivial⟩) fun e he => ?_
  rw [arrange_of_not_commutes rfl] at he
  cases he with
  | foldBinary | overSelf =>
    exact (Expr.answers_lit h _ (Nat.le_refl _) 0).imp (Dag.AtMost.any (Nat.le_refl _))
  | zeroOver => exact Expr.answers_ref hx (Nat.le_succ _) trivial 0
  | regroup hop => cases hop

/-- The rules of an operator other than regrouping lead to answers within a limit. They add two
nodes, or three if the answer has no literal on its left. -/
def RulesAnswer (α : Type) [Scalar α] (op : Binary) (limit : Nat) : Prop :=
  ∀ {d : Dag α} {x y : NodeId} {e : Expr α}, d.Lawful → x < d.count → y < d.count →
    Rewrite d (.binary op x y) e →
      e.Answers d limit (Dag.OneMore (d.count + 2) (Dag.Bare op)) ∨ Regroup d op x y e

/-- What is known of an operator with one literal: the rules other than regrouping add one node at
most, and `P` holds of the answer if they do. -/
structure LiteralAnswers (op : Binary) (limit : Nat) (P : Dag α → NodeId → Prop) : Prop where
  node : ∀ {d : Dag α} {id x y : NodeId}, d.node? id = some ⟨.binary op, [x, y]⟩ → P d id
  literal : ∀ {d : Dag α} {id : NodeId}, d.isLiteral id → P d id
  rules : ∀ {d : Dag α} {x y : NodeId} {e : Expr α}, d.Lawful → x < d.count → y < d.count →
    d.isLiteral x → d.isLiteral y = false → Rewrite d (.binary op x y) e →
      e.Answers d limit (Dag.OneMore d.count P) ∨ Regroup d op x y e

section Commuting

variable {op : Binary} {limit : Nat}

theorem answers_bare (hrules : RulesAnswer α op limit) (h : d.Lawful) (hx : x < d.count)
    (hy : y < d.count) (hbx : d.Bare op x) (hby : d.Bare op y) :
    (binary op x y).Answers d (limit + 1) (Dag.OneMore (d.count + 2) (Dag.Bare op)) := by
  have hbare : ∀ {x y : NodeId} {e : Expr α}, x < d.count → y < d.count → d.Bare op x →
      d.Bare op y → Rewrite d (.binary op x y) e →
        e.Answers d limit (Dag.OneMore (d.count + 2) (Dag.Bare op)) := by
    intro x y e hx hy hbx hby hr
    rcases hrules h hx hy hr with he | hg
    · exact he
    · cases hg with
      | both hp | left hp => exact absurd hp (hbx _ _)
      | literal _ hp | right _ _ hp => exact absurd hp (hby _ _)
  refine answers_succ h (operands_lt hx hy) (fun hc _ => Or.inl (by omega)) fun e he => ?_
  rcases arrange_cases d op x y with ha | ha
  · exact hbare hx hy hbx hby (ha ▸ he)
  · exact hbare hy hx hby hbx (ha ▸ he)

section Literal

variable (hlit : LiteralAnswers op limit P) (h : d.Lawful)
include hlit h

theorem answers_literals (hlx : d.isLiteral x) (hly : d.isLiteral y) :
    (binary op x y).Answers d (limit + 1) (Dag.OneMore d.count P) :=
  (answers_fold h (by simpa [operands] using ⟨hlx, hly⟩) (Nat.le_refl _) limit).imp
    fun ha => Or.inr ⟨ha.1, hlit.literal ha.2⟩

/-- A literal next to what has none on its left adds one node at most. -/
theorem answers_literal_bare (hx : x < d.count) (hy : y < d.count) (hl : d.isLiteral x)
    (hby : d.Bare op y) : (binary op x y).Answers d (limit + 1) (Dag.OneMore d.count P) := by
  cases hly : d.isLiteral y with
  | true => exact answers_literals hlit h hl hly
  | false =>
    have ha : (binary op x y).arrange d = .binary op x y :=
      arrange_of_not_swaps (by simp [swaps, hl])
    refine answers_succ h (operands_lt hx hy)
      (fun hc hn => Or.inr ⟨hc, hlit.node (ha ▸ hn)⟩) fun e he => ?_
    rcases hlit.rules h hx hy hl hly (ha ▸ he) with he | hg
    · exact he
    · cases hg with
      | both hp | left hp => exact absurd hp (Dag.bare_of_isLiteral hl _ _)
      | literal _ hp | right _ _ hp => exact absurd hp (hby _ _)

/-- A literal meets the literal on the left of the other operand, and no third one. -/
theorem literals_answer (hop : op.commutes) {c z : NodeId} (hl : d.isLiteral x)
    (hp : d.Prefixed op y c z) :
    (Expr.binary op (.binary op (.ref x) (.ref c)) (.ref z) : Expr α).Answers d (limit + 1)
      (Dag.OneMore (d.count + 1) P) := by
  obtain ⟨hc, hz⟩ := hp.lt_count h.wellFormed
  have hfold : (Expr.binary op (.ref x) (.ref c) : Expr α).Answers d (limit + 1)
      (Dag.AtMost (d.count + 1) Dag.IsLiteral) :=
    Expr.answers_refs
      (answers_fold h (by simpa [operands] using ⟨hl, hp.2⟩) (Nat.le_refl _) limit)
  have hbare := (h.ordered_of_prefixed hop hp).right_not_prefixed
  refine Expr.answers_binary (Q := Dag.AtMost (d.count + 1) (Dag.Bare op)) h Dag.lasting_isLiteral
    hfold (fun h' he hb => Expr.answers_ref (he.lt_count hz) hb
      (Dag.lasting_bare op h.wellFormed he hz hbare) _) fun h' _ ha hb hla hbb => ?_
  exact (answers_literal_bare hlit h' ha hb hla hbb.2).imp (Dag.OneMore.mono hbb.1)

theorem answers_literal (hop : op.commutes) (hx : x < d.count) (hy : y < d.count)
    (hl : d.isLiteral x) :
    (binary op x y).Answers d (limit + 2) (Dag.OneMore (d.count + 1) P) := by
  cases hly : d.isLiteral y with
  | true =>
    exact ((answers_literals hlit h hl hly).mono (Nat.le_succ _)).imp
      (Dag.OneMore.mono (Nat.le_succ _))
  | false =>
    have ha : (binary op x y).arrange d = .binary op x y :=
      arrange_of_not_swaps (by simp [swaps, hl])
    refine answers_succ h (operands_lt hx hy) (fun hc _ => Or.inl hc) fun e he => ?_
    rcases hlit.rules h hx hy hl hly (ha ▸ he) with he | hg
    · exact (he.mono (Nat.le_succ limit)).imp (Dag.OneMore.mono (Nat.le_succ _))
    · cases hg with
      | both hp | left hp => exact absurd hp (Dag.bare_of_isLiteral hl _ _)
      | right hl' =>
        rw [hl] at hl'
        cases hl'
      | literal _ hp => exact literals_answer hlit h hop hl hp

/-- A literal to the left of what has none on the left of its operands. -/
theorem outer_literal_answers (hop : op.commutes) (hrules : RulesAnswer α op limit) {l : Expr α}
    (hl : l.Answers d (limit + 2) (Dag.AtMost (d.count + 1) Dag.IsLiteral)) (hx : x < d.count)
    (hy : y < d.count) (hbx : d.Bare op x) (hby : d.Bare op y) :
    (Expr.binary op l (.binary op (.ref x) (.ref y))).Answers d (limit + 2)
      (Dag.AtMost (d.count + 5) Dag.AnyNode) := by
  refine Expr.answers_binary (Q := Dag.OneMore (d.count + 3) (Dag.Bare op)) h
    Dag.lasting_isLiteral hl (fun h' he hb => ?_) fun h' _ ha hb hla hbb => ?_
  · have hbx' := Dag.lasting_bare op h.wellFormed he hx hbx
    have hby' := Dag.lasting_bare op h.wellFormed he hy hby
    exact Expr.answers_refs (((answers_bare hrules h' (he.lt_count hx) (he.lt_count hy) hbx'
      hby').mono (Nat.le_succ _)).imp (Dag.OneMore.mono (by omega)))
  · -- The literal meets another one, or three nodes were added before and there is none to meet.
    rcases hbb with hc | ⟨hc, hbare⟩
    · exact (answers_literal hlit h' hop ha hb hla).imp (Dag.OneMore.any (by omega))
    · exact ((answers_literal_bare hlit h' ha hb hla hbare).mono (Nat.le_succ _)).imp
        (Dag.OneMore.any (by omega))

/-- However the literals are to be regrouped, they meet in three more steps. -/
theorem answers_commuting (hop : op.commutes) (hrules : RulesAnswer α op limit) (hx : x < d.count)
    (hy : y < d.count) :
    (binary op x y).Answers d (limit + 3) (Dag.AtMost (d.count + 5) Dag.AnyNode) := by
  have hregroup : ∀ {x y : NodeId} {e : Expr α}, x < d.count → y < d.count →
      Regroup d op x y e → e.Answers d (limit + 2) (Dag.AtMost (d.count + 5) Dag.AnyNode) := by
    intro x y e hx hy hg
    cases hg with
    | both hpx hpy =>
      obtain ⟨-, hb⟩ := hpx.lt_count h.wellFormed
      obtain ⟨-, hz⟩ := hpy.lt_count h.wellFormed
      refine outer_literal_answers hlit h hop hrules (Expr.answers_refs ?_) hb hz
        (h.ordered_of_prefixed hop hpx).right_not_prefixed
        (h.ordered_of_prefixed hop hpy).right_not_prefixed
      exact answers_fold h (by simpa [operands] using ⟨hpx.2, hpy.2⟩) (Nat.le_refl _) _
    | literal hl hp =>
      exact ((literals_answer hlit h hop hl hp).mono (Nat.le_succ _)).imp
        (Dag.OneMore.any (by omega))
    | right hl hbx hp =>
      obtain ⟨hc, hz⟩ := hp.lt_count h.wellFormed
      exact outer_literal_answers hlit h hop hrules
        (Expr.answers_ref hc (Nat.le_succ _) hp.2 _) hx hz
        (BinaryRule.prefixed?_eq_none hbx) (h.ordered_of_prefixed hop hp).right_not_prefixed
    | left hp hby =>
      obtain ⟨ha, hb⟩ := hp.lt_count h.wellFormed
      exact outer_literal_answers hlit h hop hrules
        (Expr.answers_ref ha (Nat.le_succ _) hp.2 _) hb hy
        (h.ordered_of_prefixed hop hp).right_not_prefixed (BinaryRule.prefixed?_eq_none hby)
  have hstep : ∀ {x y : NodeId} {e : Expr α}, x < d.count → y < d.count →
      Rewrite d (.binary op x y) e →
        e.Answers d (limit + 2) (Dag.AtMost (d.count + 5) Dag.AnyNode) := by
    intro x y e hx hy hr
    rcases hrules h hx hy hr with he | hg
    · exact (he.mono (Nat.le_add_right _ _)).imp (Dag.OneMore.any (by omega))
    · exact hregroup hx hy hg
  refine answers_succ h (operands_lt hx hy) (fun hc _ => ⟨by omega, trivial⟩) fun e he => ?_
  rcases arrange_cases d op x y with ha | ha
  · exact hstep hx hy (ha ▸ he)
  · exact hstep hy hx (ha ▸ he)

end Literal

end Commuting

/-- What the rules other than regrouping make of a product is a node, a negation or a power. -/
theorem rulesAnswer_mul : RulesAnswer α .mul 1 := by
  intro d x y e h hx hy hr
  cases hr with
  | foldBinary =>
    exact Or.inl ((Expr.answers_lit h _ (Nat.le_refl _) 1).imp (Dag.AtMost.oneMore (by omega)))
  | zeroTimes => exact Or.inl (Expr.answers_node hx (Nat.le_add_right _ _) 1)
  | oneTimes => exact Or.inl (Expr.answers_node hy (Nat.le_add_right _ _) 1)
  | minusOneTimes =>
    exact Or.inl ((answers_neg h hy .mul).imp (Dag.OneMore.mono (Nat.le_add_right _ _)))
  | square =>
    refine Or.inl (Expr.answers_binary (P := Dag.AnyNode) h Dag.lasting_anyNode
      (Expr.answers_ref hx (Nat.le_refl _) trivial 1)
      (fun h' _ hb => Expr.answers_lit h' _ (Nat.succ_le_succ hb) 1) fun h' _ ha hb _ hc => ?_)
    exact (answers_pow h' ha hb).imp (Dag.AtMost.oneMore (Nat.succ_le_succ hc.1))
  | regroup _ hg => exact Or.inr hg

/-- A product with a literal is one node, a negation or the other factor, none of them a sum. -/
theorem literalAnswers_mul : LiteralAnswers (α := α) .mul 1 (Dag.Bare .add) where
  node hn := Dag.bare_of_node? hn (by simp)
  literal := Dag.bare_of_isLiteral
  rules {d x y e} h hx hy hlx hly hr := by
    cases hr with
    | foldBinary _ hv => simp [Dag.isLiteral, hv] at hly
    | zeroTimes => exact Or.inl (Expr.answers_node hx (Nat.le_refl _) 1)
    | oneTimes => exact Or.inl (Expr.answers_node hy (Nat.le_refl _) 1)
    | minusOneTimes => exact Or.inl (answers_neg h hy .add)
    | square =>
      rw [hlx] at hly
      cases hly
    | regroup _ hg => exact Or.inr hg

theorem answers_mul (h : d.Lawful) (hx : x < d.count) (hy : y < d.count) :
    (binary .mul x y).Answers d 4 (Dag.AtMost (d.count + 5) Dag.AnyNode) :=
  answers_commuting literalAnswers_mul h rfl rulesAnswer_mul hx hy

/-- A difference stays one if what is subtracted is neither a literal nor a negation. -/
theorem answers_minus (h : d.Lawful) (hx : x < d.count) (hy : y < d.count)
    (hl : d.isLiteral y = false) (hn : d.negated? y = none) :
    (binary .sub x y).Answers d 2 (Dag.AtMost (d.count + 1) Dag.AnyNode) := by
  refine answers_succ h (operands_lt hx hy) (fun hc _ => ⟨hc, trivial⟩) fun e he => ?_
  rw [arrange_of_not_commutes rfl] at he
  cases he with
  | foldBinary _ hv | minusLiteral hv => simp [Dag.isLiteral, hv] at hl
  | minusSelf =>
    exact (Expr.answers_lit h _ (Nat.le_refl _) 1).imp (Dag.AtMost.any (Nat.le_refl _))
  | zeroMinus => exact (answers_neg h hy .add).imp (Dag.OneMore.any (Nat.le_refl _))
  | minusNeg hv =>
    rw [hn] at hv
    cases hv
  | regroup hop => cases hop

theorem answers_minus_negated (h : d.Lawful) {a : NodeId} (hx : x < d.count)
    (ha : d.negated? y = some a) :
    (binary .sub x a).Answers d 4 (Dag.AtMost (d.count + 1) Dag.AnyNode) := by
  obtain ⟨hlt, hl, hn⟩ := h.operand_of_negated? ha
  exact (answers_minus h hx hlt hl hn).mono (by decide)

/-- What the rules other than regrouping make of a sum is a node, twice a node or a difference. -/
theorem rulesAnswer_add : RulesAnswer α .add 4 := by
  intro d x y e h hx hy hr
  cases hr with
  | foldBinary | negPlusSelf | plusNegSelf =>
    exact Or.inl ((Expr.answers_lit h _ (Nat.le_refl _) 4).imp (Dag.AtMost.oneMore (by omega)))
  | zeroPlus => exact Or.inl (Expr.answers_node hy (Nat.le_add_right _ _) 4)
  | double =>
    -- A literal is added, and the product with it.
    refine Or.inl (Expr.answers_binary (Q := Dag.AtMost (d.count + 1) Dag.AnyNode) h
      Dag.lasting_isLiteral (Expr.answers_lit h _ (Nat.le_refl _) 4)
      (fun h' he hb => Expr.answers_ref (he.lt_count hx) hb trivial 4)
      fun h' _ ha hb hl hc => ?_)
    exact ((answers_literal literalAnswers_mul h' rfl ha hb hl).mono (by decide)).imp
      (Dag.OneMore.mono (Nat.succ_le_succ hc.1))
  | negPlus hv =>
    exact Or.inl ((answers_minus_negated h hy hv).imp (Dag.AtMost.oneMore (by omega)))
  | plusNeg hv =>
    exact Or.inl ((answers_minus_negated h hx hv).imp (Dag.AtMost.oneMore (by omega)))
  | regroup _ hg => exact Or.inr hg

theorem literalAnswers_add : LiteralAnswers (α := α) .add 4 Dag.AnyNode where
  node _ := trivial
  literal _ := trivial
  rules {d x y e} h hx hy hlx hly hr := by
    cases hr with
    | foldBinary _ hv => simp [Dag.isLiteral, hv] at hly
    | negPlusSelf | plusNegSelf =>
      exact Or.inl ((Expr.answers_lit h _ (Nat.le_refl _) 4).imp fun ha =>
        Or.inr (ha.any (Nat.le_refl _)))
    | zeroPlus => exact Or.inl (Expr.answers_node hy (Nat.le_refl _) 4)
    | double =>
      rw [hlx] at hly
      cases hly
    | negPlus hv => exact Or.inl ((answers_minus_negated h hy hv).imp Or.inr)
    | plusNeg hv => exact Or.inl ((answers_minus_negated h hx hv).imp Or.inr)
    | regroup _ hg => exact Or.inr hg

theorem answers_add (h : d.Lawful) (hx : x < d.count) (hy : y < d.count) :
    (binary .add x y).Answers d 7 (Dag.AtMost (d.count + 5) Dag.AnyNode) :=
  answers_commuting literalAnswers_add h rfl rulesAnswer_add hx hy

/-- A literal to the right of a sum goes to its left. -/
theorem answers_add_literal (h : d.Lawful) (hx : x < d.count) (hy : y < d.count)
    (hl : d.isLiteral y) :
    (binary .add x y).Answers d 7 (Dag.OneMore (d.count + 1) Dag.AnyNode) := by
  intro depth hd
  by_cases hlx : d.isLiteral x
  · exact (answers_literal literalAnswers_add h rfl hx hy hlx).mono (by decide) depth hd
  · rw [buildAt?_swap rfl (fun hl => hlx hl.2)]
    exact (answers_literal literalAnswers_add h rfl hy hx hl).mono (by decide) depth hd

theorem answers_sub (h : d.Lawful) (hx : x < d.count) (hy : y < d.count) :
    (binary .sub x y).Answers d 8 (Dag.AtMost (d.count + 5) Dag.AnyNode) := by
  refine answers_succ h (operands_lt hx hy) (fun hc _ => ⟨by omega, trivial⟩) fun e he => ?_
  rw [arrange_of_not_commutes rfl] at he
  cases he with
  | foldBinary | minusSelf =>
    exact (Expr.answers_lit h _ (Nat.le_refl _) 7).imp (Dag.AtMost.any (by omega))
  | zeroMinus =>
    exact ((answers_neg h hy .add).mono (by decide)).imp (Dag.OneMore.any (by omega))
  | minusLiteral =>
    refine Expr.answers_binary (P := Dag.AnyNode) h Dag.lasting_anyNode
      (Expr.answers_ref hx (Nat.le_refl _) trivial 7)
      (fun h' _ hb => Expr.answers_lit h' _ (Nat.succ_le_succ hb) 7) fun h' _ ha hb _ hl => ?_
    exact (answers_add_literal h' ha hb hl.2).imp (Dag.OneMore.any (by have := hl.1; omega))
  | minusNeg hv => exact Expr.answers_refs (answers_add h hx (h.operand_of_negated? hv).1)
  | regroup hop => cases hop

/-- No application nests the rules deeper than the limit, and none adds more than five nodes. -/
theorem answers (h : d.Lawful) {app : Application} (hx : ∀ x ∈ app.operands, x < d.count) :
    app.Answers d nestingLimit (Dag.AtMost (d.count + 5) Dag.AnyNode) := by
  cases app with
  | unary op x =>
    exact ((answers_unary h op (hx x (by simp [operands])) .add).mono (by decide)).imp
      (Dag.OneMore.any (by omega))
  | binary op x y =>
    have hlx : x < d.count := hx x (by simp [operands])
    have hly : y < d.count := hx y (by simp [operands])
    cases op with
    | add => exact (answers_add h hlx hly).mono (by decide)
    | sub => exact answers_sub h hlx hly
    | mul => exact (answers_mul h hlx hly).mono (by decide)
    | div => exact ((answers_div h hlx hly).mono (by decide)).imp (Dag.AtMost.any (by omega))
    | pow => exact ((answers_pow h hlx hly).mono (by decide)).imp (Dag.AtMost.any (by omega))

end Application

end SharedExpr

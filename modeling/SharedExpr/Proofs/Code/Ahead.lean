import Mathlib
import SharedExpr.Proofs.Code.Shape
import SharedExpr.Proofs.Expr.Rewrite

/-! Lowering nodes ahead of a function: only literals are lowered before the variables are known,
and the function is the same after all attempts, those that fail included. -/
namespace SharedExpr

variable {α : Type} [Scalar α] [ScalarText α] {d : Dag α}

def Dag.literalText? (d : Dag α) (id : NodeId) : Option String :=
  (d.literal? id).map ScalarText.constant

namespace Lowering

variable {s s' : Lowering}

/-- Lowers nodes one after the other, those behind one that fails included. -/
def attempts (d : Dag α) : List NodeId → Lowering → List (Except Fault String) × Lowering
  | [], s => ([], s)
  | node :: nodes, s =>
    let first : Except Fault String × Lowering := lower d node s
    let others := attempts d nodes first.2
    (first.1 :: others.1, others.2)

/-- The text of the value of a node that is lowered or a literal. -/
def text? (d : Dag α) (s : Lowering) (id : NodeId) : Option String :=
  (s.values[id]?).or (d.literalText? id)

/-- Two lowerings are alike but for literals, which only one of them may have lowered. -/
structure Agrees (d : Dag α) (s s' : Lowering) : Prop where
  body : s.body = s'.body
  text? : ∀ id, s.text? d id = s'.text? d id

theorem text?_of_known {id : NodeId} (h : s.Known id) : s.text? d id = s.values[id]? := by
  obtain ⟨t, ht⟩ := Option.isSome_iff_exists.1 h
  rw [text?, ht, Option.some_or]

theorem text?_of_symbolic {id : NodeId} (h : d.literalText? id = none) :
    s.text? d id = s.values[id]? := by
  rw [text?, h, Option.or_none]

theorem text?_start (d : Dag α) (id : NodeId) : start.text? d id = d.literalText? id := by
  simp [text?, start]

theorem text?_bind (s : Lowering) (id : NodeId) (t : String) (x : NodeId) :
    (s.bind id t).text? d x = if id = x then some t else s.text? d x := by
  rw [text?, values_bind]
  split
  · rfl
  · rfl

namespace Agrees

theorem refl (d : Dag α) (s : Lowering) : Agrees d s s :=
  ⟨rfl, fun _ => rfl⟩

theorem symm (h : Agrees d s s') : Agrees d s' s :=
  ⟨h.body.symm, fun id => (h.text? id).symm⟩

theorem trans {s'' : Lowering} (h : Agrees d s s') (h' : Agrees d s' s'') : Agrees d s s'' :=
  ⟨h.body.trans h'.body, fun id => (h.text? id).trans (h'.text? id)⟩

theorem bind (h : Agrees d s s') (id : NodeId) (t : String) :
    Agrees d (s.bind id t) (s'.bind id t) :=
  ⟨h.body, fun x => by rw [text?_bind, text?_bind, h.text?]⟩

theorem bindAll (h : Agrees d s s') (vars : List (NodeId × String)) :
    Agrees d (bindAll vars s) (bindAll vars s') := by
  induction vars generalizing s s' with
  | nil => exact h
  | cons var vars ih => exact ih (h.bind var.1 _)

theorem add (h : Agrees d s s') (id : NodeId) (t : String) (i : Option Instruction) :
    Agrees d (s.add id t i) (s'.add id t i) :=
  ⟨by simp only [Lowering.add, h.body], (h.bind id t).text?⟩

theorem add_literal (s : Lowering) {id : NodeId} {t : String} (hs : ¬ s.Known id)
    (ht : d.literalText? id = some t) : Agrees d s (s.add id t none) := by
  rw [add_none]
  refine ⟨rfl, fun x => ?_⟩
  rw [text?_bind]
  split
  · next hx =>
    subst hx
    rw [Lowering.text?, Option.not_isSome_iff_eq_none.1 hs, Option.none_or, ht]
  · rfl

theorem operand (h : Agrees d s s') {id : NodeId} (hs : s.Known id) (hs' : s'.Known id) :
    s.operand id = s'.operand id := by
  have hv := h.text? id
  rw [text?_of_known hs, text?_of_known hs'] at hv
  rw [Lowering.operand, Lowering.operand, hv]

/-- What is no literal is known to both or to none. -/
theorem known_iff (h : Agrees d s s') {id : NodeId} (hl : d.literalText? id = none) :
    s.Known id ↔ s'.Known id := by
  rw [Known, Known, ← text?_of_symbolic hl, ← text?_of_symbolic hl, h.text?]

end Agrees

theorem lowerNode_literal (h : d.Lawful) {id : NodeId} {t : String}
    (ht : d.literalText? id = some t) (s : Lowering) : lowerNode d s id = .ok (t, none) := by
  obtain ⟨a, ha, rfl⟩ := Option.map_eq_some_iff.1 ht
  rw [lowerNode, (Dag.node?_of_literal? h ha).1]

/-- The operands of a node decide how it is lowered. -/
theorem lowerNode_congr {id : NodeId} (hx : ∀ x ∈ d.operands id, s.operand x = s'.operand x) :
    lowerNode d s id = lowerNode d s' id := by
  rw [lowerNode, lowerNode]
  cases hn : d.node? id with
  | none => rfl
  | some node =>
    obtain ⟨label, operands⟩ := node
    rw [Dag.operands_of_node? hn] at hx
    cases label with
    | lit | var | gradient => rfl
    | unary op =>
      cases operands with
      | nil => rfl
      | cons x xs => simp only [hx x List.mem_cons_self]
    | binary op =>
      cases operands with
      | nil => rfl
      | cons x xs =>
        cases xs with
        | nil => rfl
        | cons y ys =>
          simp only [hx x List.mem_cons_self, hx y (List.mem_cons_of_mem _ List.mem_cons_self)]

/-- Whether a literal is known or not, the lowering of nodes goes on behind it. -/
theorem exists_lowerAll_literal (h : d.Lawful) {id : NodeId} {t : String}
    (ht : d.literalText? id = some t) (s : Lowering) (nodes : List NodeId) :
    ∃ s₁, lowerAll d (id :: nodes) s = lowerAll d nodes s₁ ∧ Agrees d s s₁ ∧ s.Keeps s₁ ∧
      s₁.Known id := by
  by_cases hk : s.Known id
  · exact ⟨s, lowerAll_cons_of_known hk nodes, .refl d s, Keeps.refl s, hk⟩
  · exact ⟨_, lowerAll_cons_ok hk (lowerNode_literal h ht s) nodes, .add_literal s hk ht,
      keeps_add hk t none, known_add s id t none⟩

/-- Two attempts that come out the same, and leave lowerings that agree. -/
structure Alike {β : Type} (d : Dag α) (r r' : Except Fault β × Lowering) : Prop where
  outcome : r.1 = r'.1
  agrees : Agrees d r.2 r'.2

theorem Alike.bind {β γ : Type} {f : ExceptT Fault (StateM Lowering) β}
    {g : β → ExceptT Fault (StateM Lowering) γ} (h : Alike d (f s) (f s'))
    (hg : ∀ b s s', Agrees d s s' → Alike d (g b s) (g b s')) :
    Alike d ((f >>= g) s) ((f >>= g) s') := by
  rw [attempt_bind, attempt_bind]
  rcases hs : (f s : Except Fault β × Lowering) with ⟨o, s₁⟩
  rcases hs' : (f s' : Except Fault β × Lowering) with ⟨o', s₁'⟩
  rw [hs, hs'] at h
  obtain ⟨houtcome, hagrees⟩ := h
  obtain rfl : o = o' := houtcome
  cases o with
  | error fault => exact ⟨rfl, hagrees⟩
  | ok b => exact hg b s₁ s₁' hagrees

namespace Agrees

variable {node : NodeId} {w : Walk}

/-- Nodes are lowered alike in the order of a walk. Both lowerings get past the literals, wherever
these are known; all else is known to both or lowered by both. -/
theorem lowerAll (hd : d.Lawful) (hc : Walk.Covers d node w) (h : Agrees d s s')
    {done todo : List NodeId} (ho : w.order.toList = done ++ todo) (hdone : ∀ x ∈ done, s.Known x ∧ s'.Known x) :
    Alike d (Lowering.lowerAll d todo s) (Lowering.lowerAll d todo s') := by
  induction todo generalizing done s s' with
  | nil => exact ⟨rfl, h⟩
  | cons id todo ih =>
    have ho' : w.order.toList = (done ++ [id]) ++ todo := by simpa using ho
    have hnext {s₁ s₁' : Lowering} (hs : s.Keeps s₁) (hs' : s'.Keeps s₁') (hk : s₁.Known id)
        (hk' : s₁'.Known id) : ∀ x ∈ done ++ [id], s₁.Known x ∧ s₁'.Known x :=
      List.forall_mem_append.2 ⟨fun x hx => (hdone x hx).imp hs.known hs'.known,
        List.forall_mem_singleton.2 ⟨hk, hk'⟩⟩
    cases ht : d.literalText? id with
    | some t =>
      obtain ⟨s₁, hs₁, ha, hs, hk⟩ := exists_lowerAll_literal hd ht s todo
      obtain ⟨s₁', hs₁', ha', hs', hk'⟩ := exists_lowerAll_literal hd ht s' todo
      rw [hs₁, hs₁']
      exact ih (ha.symm.trans (h.trans ha')) ho' (hnext hs hs' hk hk')
    | none =>
      by_cases hk : s.Known id
      · have hk' := (h.known_iff ht).1 hk
        rw [lowerAll_cons_of_known hk, lowerAll_cons_of_known hk']
        exact ih h ho' (hnext (.refl s) (.refl s') hk hk')
      · have hk' := (h.known_iff ht).not.1 hk
        have hoperand : ∀ x ∈ d.operands id, s.operand x = s'.operand x := by
          intro x hx
          have hx := hdone x (hc.settled done id todo ho x hx)
          exact h.operand hx.1 hx.2
        cases hn : lowerNode d s id with
        | error fault =>
          have hn' := (lowerNode_congr hoperand).symm.trans hn
          rw [lowerAll_cons_error hk hn, lowerAll_cons_error hk' hn']
          exact ⟨rfl, h⟩
        | ok lowered =>
          obtain ⟨t, i⟩ := lowered
          have hn' := (lowerNode_congr hoperand).symm.trans hn
          rw [lowerAll_cons_ok hk hn, lowerAll_cons_ok hk' hn']
          exact ih (h.add id t i) ho' (hnext (keeps_add hk t i) (keeps_add hk' t i)
            (known_add s id t i) (known_add s' id t i))

end Agrees

theorem exists_lower_literal (h : d.Lawful) {node : NodeId} {t : String}
    (ht : d.literalText? node = some t) (s : Lowering) :
    ∃ u s₁, lower d node s = (.ok u, s₁) ∧ s.text? d node = some u ∧ Agrees d s s₁ := by
  rw [lower]
  cases hv : s.values[node]? with
  | some u => exact ⟨u, s, rfl, by rw [text?, hv, Option.some_or], .refl d s⟩
  | none =>
    obtain ⟨a, ha, -⟩ := Option.map_eq_some_iff.1 ht
    have hn := (Dag.node?_of_literal? h ha).1
    have horder : (d.walk node).order.toList = [node] := by
      rw [Dag.walk_order h.wellFormed (Dag.lt_of_node? hn),
        Dag.postOrder_of_not_mem h.wellFormed List.not_mem_nil, Dag.operands_of_node? hn]
      rfl
    obtain ⟨s₁, hs₁, hagrees, -, hk⟩ := exists_lowerAll_literal h ht s []
    obtain ⟨u, hu⟩ := operand_of_known hk
    refine ⟨u, s₁, ?_, ?_, hagrees⟩
    · rw [horder, hs₁]
      simp only [lowerAll, hu]
    · rw [hagrees.text?, text?_of_known hk, operand_eq_ok hu]

theorem Agrees.lower (hd : d.Lawful) {node : NodeId} (hnode : node < d.count) (h : Agrees d s s') :
    Alike d (Lowering.lower d node s) (Lowering.lower d node s') := by
  cases ht : d.literalText? node with
  | some t =>
    obtain ⟨u, s₁, hs, hu, hagrees⟩ := exists_lower_literal hd ht s
    obtain ⟨u', s₁', hs', hu', hagrees'⟩ := exists_lower_literal hd ht s'
    rw [hs, hs']
    obtain rfl := Option.some.inj (hu.symm.trans ((h.text? node).trans hu'))
    exact ⟨rfl, hagrees.symm.trans (h.trans hagrees')⟩
  | none =>
    have hv := h.text? node
    rw [text?_of_symbolic ht, text?_of_symbolic ht] at hv
    rw [Lowering.lower, Lowering.lower, hv]
    cases s'.values[node]? with
    | some u => exact ⟨rfl, h⟩
    | none =>
      have hc := Dag.walk_covers hd.wellFormed hnode
      obtain ⟨houtcome, hagrees⟩ := h.lowerAll hd hc (List.nil_append _).symm
        fun x hx => absurd hx List.not_mem_nil
      rcases hs : Lowering.lowerAll d (d.walk node).order.toList s with ⟨o, s₁⟩
      rcases hs' : Lowering.lowerAll d (d.walk node).order.toList s' with ⟨o', s₁'⟩
      rw [hs, hs'] at houtcome hagrees
      obtain rfl : o = o' := houtcome
      cases o with
      | error fault => exact ⟨rfl, hagrees⟩
      | ok =>
        have hmem := (hc.mem_order_iff node).2 .refl
        exact ⟨hagrees.operand ((lowerAll_keeps hs).2 node hmem) ((lowerAll_keeps hs').2 node hmem),
          hagrees⟩

theorem Agrees.lowerList (hd : d.Lawful) {nodes : List NodeId}
    (hlt : ∀ node ∈ nodes, node < d.count) (h : Agrees d s s') :
    Alike d (Lowering.lowerList d nodes s) (Lowering.lowerList d nodes s') := by
  induction nodes generalizing s s' with
  | nil => exact ⟨rfl, h⟩
  | cons node nodes ih =>
    obtain ⟨hnode, hlt⟩ := List.forall_mem_cons.1 hlt
    exact (h.lower hd hnode).bind fun t _ _ hagrees =>
      (ih hlt hagrees).bind fun ts _ _ hagrees => ⟨rfl, hagrees⟩

theorem Agrees.program (hd : d.Lawful) (h : Agrees d s s') (root : NodeId) (options : CodeOptions) :
    s.program d root options = s'.program d root options := by
  by_cases hroot : root < d.count
  · have hlist := (h.bindAll (d.namedVars root)).lowerList hd (Dag.resultNodes_lt hd hroot)
    rw [program_from_eq s hroot, program_from_eq s' hroot]
    rcases hs : (Lowering.lowerList d (d.resultNodes root) (Lowering.bindAll (d.namedVars root) s) :
      Except Fault (List String) × Lowering) with ⟨o, s₁⟩
    rcases hs' : (Lowering.lowerList d (d.resultNodes root) (Lowering.bindAll (d.namedVars root) s')
      : Except Fault (List String) × Lowering) with ⟨o', s₁'⟩
    rw [hs, hs'] at hlist
    obtain ⟨houtcome, hagrees⟩ := hlist
    obtain rfl : o = o' := houtcome
    cases o with
    | error fault => rfl
    | ok ts =>
      have hbody : s₁.body = s₁'.body := hagrees.body
      simp only [complete, hbody]
  · rw [program_from_foreign s hroot, program_from_foreign s' hroot]

/-- Without its variables no node is lowered but a literal: each operator has a variable or a
gradient under it, or it would have been folded. -/
theorem exists_lowerNode_error (h : d.Lawful) {id : NodeId} (ht : d.literalText? id = none)
    (hx : ∀ x ∈ d.operands id, d.isLiteral x) (s : Lowering) :
    ∃ fault, lowerNode d s id = .error fault := by
  rw [lowerNode]
  cases hn : d.node? id with
  | none => exact ⟨_, rfl⟩
  | some node =>
    rw [Dag.operands_of_node? hn] at hx
    cases h.admits hn with
    | lit => simp [Dag.literalText?, Dag.literal?, Dag.label?_of_node? hn, Label.literal?] at ht
    | var | gradient => exact ⟨_, rfl⟩
    | unary op _ hl => simp [hx _ List.mem_cons_self] at hl
    | binary op _ _ hl =>
      simp [hx _ List.mem_cons_self, hx _ (List.mem_cons_of_mem _ List.mem_cons_self)] at hl

namespace Agrees

variable {node : NodeId}

theorem not_known (h : Agrees d s start) {id : NodeId} (hl : d.literalText? id = none) :
    ¬ s.Known id := by
  rw [h.known_iff hl]
  simp [Known, start]

/-- A lowering that knows only literals knows nothing else after an attempt in the order of a walk,
which gets no further than to the first node that is none. -/
theorem lowerAll_start (hd : d.Lawful) {w : Walk} (hc : Walk.Covers d node w)
    (h : Agrees d s start) {done todo : List NodeId} (ho : w.order.toList = done ++ todo)
    (hdone : ∀ x ∈ done, d.isLiteral x) : Agrees d (Lowering.lowerAll d todo s).2 start := by
  induction todo generalizing done s with
  | nil => exact h
  | cons id todo ih =>
    cases ht : d.literalText? id with
    | some t =>
      obtain ⟨s₁, hs₁, hagrees, -⟩ := exists_lowerAll_literal hd ht s todo
      obtain ⟨a, ha, -⟩ := Option.map_eq_some_iff.1 ht
      have ho' : w.order.toList = (done ++ [id]) ++ todo := by simpa using ho
      rw [hs₁]
      exact ih (hagrees.symm.trans h) ho'
        (List.forall_mem_append.2 ⟨hdone,
          List.forall_mem_singleton.2 (Option.isSome_of_eq_some ha)⟩)
    | none =>
      have hk := h.not_known ht
      obtain ⟨fault, hn⟩ := exists_lowerNode_error hd ht
        (fun x hx => hdone x (hc.settled done id todo ho x hx)) s
      rw [lowerAll_cons_error hk hn]
      exact h

theorem lower_start (hd : d.Lawful) (hnode : node < d.count) (h : Agrees d s start) :
    (Lowering.lower d node s : Except Fault String × Lowering).1.toOption = d.literalText? node ∧
      Agrees d (Lowering.lower d node s : Except Fault String × Lowering).2 start := by
  cases ht : d.literalText? node with
  | some t =>
    obtain ⟨u, s₁, hs, hu, hagrees⟩ := exists_lower_literal hd ht s
    rw [h.text?, text?_start, ht] at hu
    obtain rfl := Option.some.inj hu
    rw [hs]
    exact ⟨rfl, hagrees.symm.trans h⟩
  | none =>
    have hc := Dag.walk_covers hd.wellFormed hnode
    have hs := h.lowerAll_start hd hc (List.nil_append _).symm
      fun x hx => absurd hx List.not_mem_nil
    have hv : s.values[node]? = none := by
      rw [← text?_of_symbolic ht, h.text?, text?_start, ht]
    rw [Lowering.lower, hv]
    rcases hl : Lowering.lowerAll d (d.walk node).order.toList s with ⟨o, s₁⟩
    rw [hl] at hs
    cases o with
    | error fault => exact ⟨rfl, hs⟩
    | ok =>
      exact absurd ((lowerAll_keeps hl).2 node ((hc.mem_order_iff node).2 .refl)) (hs.not_known ht)

theorem attempts_start (hd : d.Lawful) {nodes : List NodeId} (hn : ∀ node ∈ nodes, node < d.count)
    (h : Agrees d s start) :
    (attempts d nodes s).1.map Except.toOption = nodes.map d.literalText? ∧
      Agrees d (attempts d nodes s).2 start := by
  induction nodes generalizing s with
  | nil => exact ⟨rfl, h⟩
  | cons node nodes ih =>
    obtain ⟨hnode, hn⟩ := List.forall_mem_cons.1 hn
    obtain ⟨hfirst, hagrees⟩ := h.lower_start hd hnode
    obtain ⟨hothers, hagrees⟩ := ih hn hagrees
    exact ⟨congrArg₂ List.cons hfirst hothers, hagrees⟩

end Agrees

end Lowering

namespace Dag

/-- Lowering nodes ahead of a function has no effect on it. Each attempt answers the text of its
node if that is a literal, and fails otherwise; there is no instruction afterwards, and what is then
completed for a root, be it a function or a failure, is what is completed without the attempts. -/
theorem Reachable.lowering_ahead (h : d.Reachable) {nodes : List NodeId}
    (hn : ∀ node ∈ nodes, node < d.count) :
    let run := Lowering.attempts d nodes .start
    run.1.map Except.toOption = nodes.map d.literalText? ∧ run.2.body = #[] ∧
      ∀ root options, run.2.program d root options = d.program root options := by
  obtain ⟨hanswers, hagrees⟩ := (Lowering.Agrees.refl d .start).attempts_start h.lawful hn
  exact ⟨hanswers, hagrees.body, hagrees.program h.lawful⟩

def threeMore : Dag Double :=
  ((Command.build (.binary .add (.var "x") (.lit ⟨0x4008000000000000⟩))).run empty).2

theorem reachable_threeMore : threeMore.Reachable := by
  have ho : ((Command.build (.binary .add (.var "x") (.lit ⟨0x4008000000000000⟩))).run
      (empty : Dag Double)).1 = some (.node 2) := by cbv
  exact Reachable.empty.next ho

/-- The sum `x + 3` and the variable are not lowered ahead, only the literal between them. -/
theorem threeMore_lowering_ahead :
    let run := Lowering.attempts threeMore [2, 1, 0] .start
    run.1.map Except.toOption = [none, some (Double.constant ⟨0x4008000000000000⟩), none] ∧
      run.2.body = #[] ∧ run.2.program threeMore 2 {} = threeMore.program 2 {} := by
  have hcount : threeMore.count = 3 := by cbv
  have hsum : threeMore.literal? 2 = none := by cbv
  have hthree : threeMore.literal? 1 = some ⟨0x4008000000000000⟩ := by cbv
  have hx : threeMore.literal? 0 = none := by cbv
  have hlt : ∀ node ∈ ([2, 1, 0] : List NodeId), node < threeMore.count := by simp [hcount]
  obtain ⟨hanswers, hbody, hprogram⟩ := reachable_threeMore.lowering_ahead hlt
  exact ⟨by simpa [literalText?, hsum, hthree, hx, ScalarText.constant] using hanswers, hbody,
    hprogram 2 {}⟩

end Dag

end SharedExpr

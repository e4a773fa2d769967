import SharedExpr.Eval.Evaluate
import SharedExpr.Proofs.Dag.Walk
import SharedExpr.Proofs.Gradient.Growth

/-! Evaluation in the order of a walk answers the values of nodes by recursion. -/
namespace SharedExpr

variable {α : Type} [Scalar α]

/-- The variables under a node have the values that an assignment gives them. -/
def Bindings.Agrees (b : Bindings α) (d : Dag α) (root : NodeId) (ρ : String → α) : Prop :=
  ∀ v name, d.Reaches root v → d.name? v = some name → b name = some (ρ name)

/-- The memo holds the values of some nodes and, of the gradients among them, those of their
parts. -/
structure Memo.Holds (m : Memo α) (d : Dag α) (ρ : String → α) (nodes : List NodeId) : Prop where
  get?_eq : ∀ id ∈ nodes, m.get? id = some (d.denote ρ id)
  bundle?_eq : ∀ id ∈ nodes, ∀ parts, d.bundle? id = some parts →
    m.bundle? id = some ((parts.primal :: parts.partials).map (d.denote ρ))

namespace Memo.Holds

variable {m m' : Memo α} {d : Dag α} {ρ : String → α} {nodes : List NodeId}

theorem value_eq (hm : m.Holds d ρ nodes) {id : NodeId} (hid : id ∈ nodes) :
    m.value id = .ok (d.denote ρ id) := by
  rw [Memo.value, hm.get?_eq id hid]

theorem mapM_value_eq (hm : m.Holds d ρ nodes) {ids : List NodeId} (hids : ∀ id ∈ ids, id ∈ nodes) :
    ids.mapM m.value = .ok (ids.map (d.denote ρ)) := by
  induction ids with
  | nil => rfl
  | cons id ids ih =>
    rw [List.mapM_cons, hm.value_eq (hids id List.mem_cons_self),
      ih fun x hx => hids x (List.mem_cons_of_mem id hx)]
    rfl

theorem extend (hm : m.Holds d ρ nodes) {id : NodeId} {value : α} (hv : d.denote ρ id = value)
    (hget : ∀ x, m'.get? x = if id = x then some value else m.get? x)
    (hnew : ∀ parts, d.bundle? id = some parts →
      m'.bundle? id = some ((parts.primal :: parts.partials).map (d.denote ρ)))
    (hold : ∀ x, id ≠ x → m'.bundle? x = m.bundle? x) : m'.Holds d ρ (nodes ++ [id]) where
  get?_eq x hx := by
    rw [hget]
    split
    · next h => rw [← h, hv]
    · next h =>
      rcases List.mem_append.1 hx with hx | hx
      · exact hm.get?_eq x hx
      · exact absurd (List.mem_singleton.1 hx).symm h
  bundle?_eq x hx parts hp := by
    by_cases h : id = x
    · subst h
      exact hnew parts hp
    · rw [hold x h]
      rcases List.mem_append.1 hx with hx | hx
      · exact hm.bundle?_eq x hx parts hp
      · exact absurd (List.mem_singleton.1 hx).symm h

theorem insert (hm : m.Holds d ρ nodes) {id : NodeId} {value : α} (hv : d.denote ρ id = value)
    (hb : ∀ parts, d.bundle? id ≠ some parts) : (m.insert id value).Holds d ρ (nodes ++ [id]) :=
  hm.extend hv (fun x => m.get?_insert id x value) (fun parts hp => absurd hp (hb parts))
    fun _ _ => rfl

theorem insertBundle (hm : m.Holds d ρ nodes) {id : NodeId} {value : α} {parts : Dag.Bundle}
    (hv : d.denote ρ id = value) (hb : d.bundle? id = some parts) :
    ((m.insertBundle id ((parts.primal :: parts.partials).map (d.denote ρ))).insert id value).Holds
      d ρ (nodes ++ [id]) := by
  refine hm.extend hv (fun x => Memo.get?_insert _ id x value) (fun ps hp => ?_) fun x hx => ?_
  · obtain rfl := Option.some.inj (hb.symm.trans hp)
    rw [Memo.bundle?_insert, Memo.bundle?_insertBundle, if_pos rfl]
  · rw [Memo.bundle?_insert, Memo.bundle?_insertBundle, if_neg hx]

end Memo.Holds

namespace Dag

variable {d : Dag α} {ρ : String → α} {b : Bindings α} {root : NodeId}

theorem evaluateNode_holds (h : d.Lawful) (hb : b.Agrees d root ρ) {m : Memo α}
    {nodes : List NodeId} (hm : m.Holds d ρ nodes) {id : NodeId} (hid : id < d.count)
    (hr : d.Reaches root id) (hx : ∀ x ∈ d.operands id, x ∈ nodes) :
    ∃ m', d.evaluateNode b m id = .ok m' ∧ m'.Holds d ρ (nodes ++ [id]) := by
  obtain ⟨⟨label, operands⟩, hn⟩ := exists_node? hid
  have hv := denote_eq h.wellFormed ρ hn
  rw [operands_of_node? hn] at hx
  have hplain : (∀ vars, label ≠ .gradient vars) → ∀ parts, d.bundle? id ≠ some parts := by
    intro hl parts hp
    have hnode := Option.some.inj (hn.symm.trans (bundle?_eq_some_iff.1 hp))
    exact hl parts.vars (congrArg Node.label hnode)
  rw [evaluateNode, hn]
  cases h.admits hn with
  | @lit value =>
    exact ⟨m.insert id value, rfl, hm.insert hv (hplain (by simp))⟩
  | var name =>
    have hname : b name = some (ρ name) :=
      hb id name hr (by simp [name?, label?_of_node? hn, Label.name?])
    exact ⟨m.insert id (ρ name), by simp [hname], hm.insert hv (hplain (by simp))⟩
  | @unary op x =>
    refine ⟨m.insert id (Scalar.unary op (d.denote ρ x)), ?_, hm.insert hv (hplain (by simp))⟩
    simp [hm.value_eq (hx x (by simp)), bind, Except.bind, pure, Except.pure]
  | @binary op x y =>
    refine ⟨m.insert id (Scalar.binary op (d.denote ρ x) (d.denote ρ y)), ?_,
      hm.insert hv (hplain (by simp))⟩
    simp [hm.value_eq (hx x (by simp)), hm.value_eq (hx y (by simp)), bind, Except.bind, pure,
      Except.pure]
  | @gradient primal partials vars =>
    have hbundle : d.bundle? id = some ⟨primal, partials, vars⟩ := bundle?_eq_some_iff.2 hn
    have hps := hm.mapM_value_eq fun x hm => hx x (List.mem_cons_of_mem primal hm)
    refine ⟨_, ?_, hm.insertBundle hv hbundle⟩
    simp [hm.value_eq (hx primal (by simp)), hps, bind, Except.bind, pure, Except.pure,
      Label.denote]

theorem evaluate_order (h : d.Lawful) (hb : b.Agrees d root ρ) (hroot : root < d.count) {w : Walk}
    (hc : Walk.Covers d root w) {done todo : List NodeId} (ho : w.order.toList = done ++ todo)
    {m : Memo α} (hm : m.Holds d ρ done) :
    ∃ m', todo.foldlM (d.evaluateNode b) m = .ok m' ∧ m'.Holds d ρ w.order.toList := by
  induction todo generalizing done m with
  | nil =>
    rw [List.append_nil] at ho
    exact ⟨m, rfl, ho ▸ hm⟩
  | cons id todo ih =>
    have hr : d.Reaches root id := (hc.mem_order_iff id).1 (by simp [ho])
    obtain ⟨m₁, hm₁, hh₁⟩ := evaluateNode_holds h hb hm (hr.lt_count h.wellFormed hroot) hr
      (hc.settled done id todo ho)
    obtain ⟨m', hm', hh'⟩ := ih (by simpa using ho) hh₁
    refine ⟨m', ?_, hh'⟩
    rw [List.foldlM_cons, hm₁]
    exact hm'

/-- With values for all variables under it, the evaluation of a node succeeds with its value, and
the values of all nodes under it are at hand. -/
theorem evaluateAll_eq (h : d.Lawful) (hroot : root < d.count) (hb : b.Agrees d root ρ) :
    ∃ m, d.evaluateAll root b = .ok (d.denote ρ root, m) ∧
      m.Holds d ρ (d.walk root).order.toList := by
  have hc := walk_covers h.wellFormed hroot
  have hempty : (Memo.empty : Memo α).Holds d ρ [] := ⟨by simp, by simp⟩
  obtain ⟨m, hm, hh⟩ := evaluate_order h hb hroot hc (List.nil_append _).symm hempty
  have hbound : d.checkBound b (d.walk root).freeVars = .ok () := by
    rw [checkBound, forM_eq_ok_iff]
    intro v hv
    obtain ⟨hr, hname⟩ := hc.mem_freeVars_iff.1 hv
    obtain ⟨name, hname⟩ := Option.isSome_iff_exists.1 hname
    simp [hname, hb v name hr hname]
  refine ⟨m, ?_, hh⟩
  rw [evaluateAll, check_of_lt hroot]
  simp only [bind, Except.bind, hbound]
  rw [hm]
  simp only [hh.value_eq ((hc.mem_order_iff root).2 .refl), pure, Except.pure]

theorem evaluateAll_of_unbound (hroot : root < d.count) {fault : Fault}
    (hc : d.checkBound b (d.freeVars root) = .error fault) :
    d.evaluateAll root b = .error fault := by
  have hc : d.checkBound b (d.walk root).freeVars = .error fault := hc
  rw [evaluateAll, check_of_lt hroot]
  simp only [bind, Except.bind, hc]

theorem agrees_of_bound (hw : d.WellFormed) (hroot : root < d.count)
    (hc : d.checkBound b (d.freeVars root) = .ok ()) :
    b.Agrees d root fun name => (b name).getD Scalar.zero := by
  intro v name hv hname
  have hmem := (walk_covers hw hroot).mem_freeVars_iff.2 ⟨hv, Option.isSome_of_eq_some hname⟩
  have hbound := forM_eq_ok_iff.1 hc v hmem
  cases hb : b name with
  | some value => simp [hb]
  | none => simp [hname, hb] at hbound

theorem evaluate_eq (h : d.Lawful) (hroot : root < d.count)
    (hb : b.Agrees d root ρ) : d.evaluate root b = .ok (d.denote ρ root) := by
  obtain ⟨m, hm, -⟩ := evaluateAll_eq h hroot hb
  rw [evaluate, hm]
  rfl

theorem evaluateGradient_eq (h : d.Lawful) (hroot : root < d.count)
    (hb : b.Agrees d root ρ) {parts : Bundle} (hp : d.bundle? root = some parts) :
    d.evaluateGradient root b = .ok ((parts.primal :: parts.partials).map (d.denote ρ)) := by
  obtain ⟨m, hm, hh⟩ := evaluateAll_eq h hroot hb
  have hmem := ((walk_covers h.wellFormed hroot).mem_order_iff root).2 .refl
  rw [evaluateGradient, hm]
  simp [bind, Except.bind, hh.bundle?_eq root hmem parts hp, pure, Except.pure]

end Dag

end SharedExpr

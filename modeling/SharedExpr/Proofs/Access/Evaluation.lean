import SharedExpr.Access.Evaluate
import SharedExpr.Proofs.Access.Walk
import SharedExpr.Proofs.Eval.Outcome

/-! Evaluation on a used ledger makes no access out of range. It answers what evaluation with an
empty memo answers and leaves the values that it leaves. -/
namespace SharedExpr

namespace Ledger

variable {α : Type} {l : Ledger α} {m : Memo α}

/-- The values in a ledger are those in a memo. -/
structure Shows (l : Ledger α) (m : Memo α) : Prop where
  get?_eq : ∀ id, l.get? id = m.get? id
  bundle?_eq : ∀ id, l.bundle? id = m.bundle? id

theorem shows_clear (l : Ledger α) : l.clear.Shows .empty :=
  ⟨by simp, by simp⟩

theorem shows_empty : (empty : Ledger α).Shows .empty :=
  ⟨fun _ => by simp [get?, empty], fun _ => by simp [bundle?, empty]⟩

namespace Shows

theorem reserve (hs : l.Shows m) (size : Nat) : (l.reserve size).Shows m :=
  ⟨fun id => (l.get?_reserve size id).trans (hs.get?_eq id), hs.bundle?_eq⟩

theorem insertBundle (hs : l.Shows m) (node : NodeId) (values : List α) :
    (l.insertBundle node values).Shows (m.insertBundle node values) where
  get?_eq := hs.get?_eq
  bundle?_eq x := by
    have hx := hs.bundle?_eq x
    rw [bundle?] at hx
    rw [Memo.bundle?_insertBundle, bundle?, Ledger.insertBundle, Std.HashMap.getElem?_insert, hx]
    simp

theorem insert (hs : l.Shows m) (node : NodeId) (value : α) :
    ∃ l', l.insert node value = some l' ∧ l'.Shows (m.insert node value) := by
  obtain ⟨l', hl', hb, hv⟩ := l.exists_insert node value
  refine ⟨l', hl', fun x => ?_, fun x => ?_⟩
  · rw [hv, Memo.get?_insert, hs.get?_eq]
  · rw [bundle?, hb]
    exact hs.bundle?_eq x

theorem value_eq [Scalar α] (hs : l.Shows m) : l.value = m.value := by
  funext node
  cases hv : m.get? node with
  | none | some => simp only [Ledger.value, Memo.value, hs.get?_eq, hv]

end Shows

end Ledger

namespace Access

variable {α : Type} [Scalar α] {d : Dag α} {b : Bindings α} {l : Ledger α} {m : Memo α}
  {root : NodeId}

/-- An outcome on a ledger with the answer of an outcome with a memo, and its values if it is no
failure. -/
def Simulates {β : Type} (r : Access (Except Fault β × Ledger α)) :
    Except Fault (β × Memo α) → Prop
  | .error fault => ∃ l, r = some (.error fault, l)
  | .ok (answer, m) => ∃ l, r = some (.ok answer, l) ∧ l.Shows m

/-- What evaluation does to a node, which has the operands of its label. -/
theorem evaluateNode_cases (h : d.Lawful) {id : NodeId} (hid : id < d.count) (hs : l.Shows m) :
    (∃ fault l', evaluateNode d b l id = some (.error fault, l') ∧
      d.evaluateNode b m id = .error fault) ∨
    ∃ value l' m', evaluateNode d b l id = some (.ok value, l') ∧ l'.Shows m' ∧
      d.evaluateNode b m id = .ok (m'.insert id value) := by
  obtain ⟨⟨label, operands⟩, hn⟩ := Dag.exists_node? hid
  rw [evaluateNode, Dag.evaluateNode, hn, Dag.labelAt_of_node? hn,
    Dag.operandsAt_of_node? h.wellFormed hn, hs.value_eq]
  cases h.admits hn with
  | @lit value => exact .inr ⟨value, l, m, rfl, hs, rfl⟩
  | var name =>
    cases hb : b name with
    | none => exact .inl ⟨.unboundVariable name, l, by simp [hb], by simp [hb]⟩
    | some value => exact .inr ⟨value, l, m, by simp [hb], hs, by simp [hb]⟩
  | @unary op x =>
    cases hx : m.value x with
    | error fault =>
      exact .inl ⟨fault, l, by simp [hx, Except.map], by simp [hx, bind, Except.bind]⟩
    | ok a =>
      exact .inr ⟨Scalar.unary op a, l, m, by simp [hx, Except.map], hs,
        by simp [hx, bind, Except.bind, pure, Except.pure]⟩
  | @binary op x y =>
    cases hx : m.value x with
    | error fault => exact .inl ⟨fault, l, by simp [hx], by simp [hx, bind, Except.bind]⟩
    | ok a =>
      cases hy : m.value y with
      | error fault =>
        exact .inl ⟨fault, l, by simp [hx, hy, Except.map], by simp [hx, hy, bind, Except.bind]⟩
      | ok c =>
        exact .inr ⟨Scalar.binary op a c, l, m, by simp [hx, hy, Except.map], hs,
          by simp [hx, hy, bind, Except.bind, pure, Except.pure]⟩
  | @gradient primal partials vars =>
    cases hp : m.value primal with
    | error fault =>
      exact .inl ⟨fault, l, by simp [List.mapM_cons, hp, bind, Except.bind],
        by simp [hp, bind, Except.bind]⟩
    | ok value =>
      cases hps : partials.mapM m.value with
      | error fault =>
        exact .inl ⟨fault, l, by simp [List.mapM_cons, hp, hps, bind, Except.bind],
          by simp [hp, hps, bind, Except.bind]⟩
      | ok values =>
        exact .inr ⟨value, l.insertBundle id (value :: values), m.insertBundle id (value :: values),
          by simp [List.mapM_cons, hp, hps, bind, Except.bind, pure, Except.pure],
          hs.insertBundle id _, by simp [hp, hps, bind, Except.bind, pure, Except.pure]⟩

theorem evaluateNodes_simulates (h : d.Lawful) {nodes : List NodeId}
    (hn : ∀ id ∈ nodes, id < d.count) (hs : l.Shows m) :
    Simulates (evaluateNodes d b nodes l) ((nodes.foldlM (d.evaluateNode b) m).map ((), ·)) := by
  induction nodes generalizing l m with
  | nil => exact ⟨l, rfl, hs⟩
  | cons id nodes ih =>
    obtain ⟨hid, hn⟩ := List.forall_mem_cons.1 hn
    rw [evaluateNodes, List.foldlM_cons]
    rcases evaluateNode_cases (b := b) h hid hs with
      ⟨fault, l', hl, hm⟩ | ⟨value, l', m', hl, hs', hm⟩
    · rw [hl, hm]
      exact ⟨l', rfl⟩
    · obtain ⟨l'', hl'', hs''⟩ := hs'.insert id value
      rw [hl, hm]
      simp only [Option.bind_eq_bind, Option.bind_some, hl'']
      exact ih hn hs''

theorem checkBound_eq {vars : List NodeId} (hv : ∀ v ∈ vars, v < d.count) :
    checkBound d b vars = some (d.checkBound b vars) := by
  induction vars with
  | nil => rfl
  | cons var vars ih =>
    obtain ⟨hvar, hv⟩ := List.forall_mem_cons.1 hv
    show _ = some (_ >>= fun _ => d.checkBound b vars)
    rw [checkBound, Dag.nameAt_eq hvar, ih hv]
    dsimp only
    cases d.name? var with
    | none => rfl
    | some name =>
      dsimp only [Option.bind_eq_bind, Option.bind_some]
      split <;> rfl

theorem evaluateOn_simulates (h : d.Lawful) (root : NodeId) (b : Bindings α)
    (hs : l.Shows .empty) : Simulates (evaluateOn d root b l) (d.evaluateAll root b) := by
  by_cases hroot : root < d.count
  · have hcov := Dag.walk_covers h.wellFormed hroot
    have hnodes := evaluateNodes_simulates (b := b) h (hcov.order_lt h.wellFormed hroot)
      (hs.reserve d.count)
    rw [evaluateOn, Dag.evaluateAll, Dag.check_of_lt hroot, walk_eq h.wellFormed hroot]
    simp only [Option.bind_eq_bind, Option.bind_some,
      checkBound_eq (hcov.freeVars_lt h.wellFormed hroot)]
    cases hb : d.checkBound b (d.walk root).freeVars with
    | error fault => exact ⟨l, rfl⟩
    | ok =>
      simp only [bind, Except.bind]
      cases hm : (d.walk root).order.toList.foldlM (d.evaluateNode b) .empty with
      | error fault =>
        rw [hm] at hnodes
        obtain ⟨l', hl'⟩ := hnodes
        rw [hl']
        exact ⟨l', rfl⟩
      | ok m =>
        rw [hm] at hnodes
        obtain ⟨l', hl', hs'⟩ := hnodes
        rw [hl']
        simp only [Option.bind_some, hs'.value_eq]
        cases m.value root with
        | error fault => exact ⟨l', rfl⟩
        | ok value => exact ⟨l', rfl, hs'⟩
  · rw [evaluateOn, Dag.evaluateAll, Dag.check_of_not_lt hroot]
    exact ⟨l, rfl⟩

/-- Evaluation on any ledger answers what an evaluator answers, and leaves what it leaves. -/
theorem evaluate_eq (h : d.Lawful) (root : NodeId) (b : Bindings α) (l : Ledger α) (m : Memo α) :
    ∃ l', evaluate d root b l = some ((Evaluator.evaluate d root b m).1, l') ∧
      l'.Shows (Evaluator.evaluate d root b m).2 := by
  have hon := evaluateOn_simulates h root b l.shows_clear
  rw [evaluate, Evaluator.evaluate]
  rcases he : d.evaluateAll root b with fault | ⟨value, m'⟩
  · rw [he] at hon
    obtain ⟨l', hl'⟩ := hon
    rw [hl']
    exact ⟨l'.clear, rfl, l'.shows_clear⟩
  · rw [he] at hon
    obtain ⟨l', hl', hs'⟩ := hon
    rw [hl']
    exact ⟨l', rfl, hs'⟩

theorem bindingsAt_eq (h : d.WellFormed) (root : NodeId) (values : List α) :
    bindingsAt d root values = some (d.bindingsAt root values) := by
  by_cases hroot : root < d.count
  · have hvars := (Dag.walk_covers h hroot).freeVars_lt h hroot
    have hnames : (d.walk root).freeVars.mapM d.nameAt =
        some ((d.walk root).freeVars.map d.name?) := mapM_eq fun v hv => Dag.nameAt_eq (hvars v hv)
    rw [bindingsAt, Dag.bindingsAt, Dag.check_of_lt hroot]
    simp only [walk_eq h hroot, hnames, Option.bind_some, bind, Except.bind, Dag.freeVars]
    by_cases hlen : (d.walk root).freeVars.length = values.length
    · simp [hlen, pure, Except.pure]
    · simp [hlen, throw, throwThe, MonadExceptOf.throw]
  · rw [bindingsAt, Dag.bindingsAt, Dag.check_of_not_lt hroot]
    rfl

theorem evaluateAt_eq (h : d.Lawful) (hs : l.Shows m) (root : NodeId) (values : List α) :
    ∃ l', evaluateAt d root values l = some ((Evaluator.evaluateAt d root values m).1, l') ∧
      l'.Shows (Evaluator.evaluateAt d root values m).2 := by
  rw [evaluateAt, Evaluator.evaluateAt, bindingsAt_eq h.wellFormed]
  cases d.bindingsAt root values with
  | error fault => exact ⟨l, rfl, hs⟩
  | ok b => exact evaluate_eq h root b l m

theorem sample_eq (h : d.Lawful) (root : NodeId) (var : String) (xs : List α) (b : Bindings α) :
    sample d root var xs b = some (d.sample root var xs b) := by
  choose l hl _ using fun x => evaluate_eq h root (b.set var x) .empty .empty
  have hmap : xs.mapM (fun x => evaluate d root (b.set var x) .empty) =
      some (xs.map fun x => (d.evaluate root (b.set var x), l x)) :=
    mapM_eq fun x _ => (hl x).trans (by rw [Dag.evaluator_eq])
  rw [sample, Dag.sample, hmap]
  simp [List.mapM_map, Function.comp_def]

theorem evaluateGradient_eq (h : d.Lawful) (node : NodeId) (b : Bindings α) :
    evaluateGradient d node b = some (d.evaluateGradient node b) := by
  obtain ⟨l, hl, hs⟩ := evaluate_eq h node b .empty .empty
  rw [Evaluator.evaluate] at hl hs
  rw [evaluateGradient, Dag.evaluateGradient, hl]
  rcases he : d.evaluateAll node b with fault | ⟨value, m⟩
  · rfl
  · rw [he] at hs
    simp only [Option.bind_some, hs.bundle?_eq, bind, Except.bind]
    cases m.bundle? node <;> rfl

end Access

end SharedExpr

import Mathlib
import SharedExpr.Proofs.Access.Evaluation
import SharedExpr.Proofs.Code.Shape

/-! An evaluator that is used again and again. Its earlier calls make no difference, and after a
success it has the values of the nodes under the root and no others. -/
namespace SharedExpr

variable {α : Type} [Scalar α] {d : Dag α} {b : Bindings α} {ρ : String → α}

/-- A call of an evaluator: values come by name, or in the order of the names. -/
inductive Call (α : Type) where
  | named (root : NodeId) (b : Bindings α)
  | ordered (root : NodeId) (values : List α)

namespace Call

def root : Call α → NodeId
  | named root _ | ordered root _ => root

/-- The environment of a call, unless its values do not fit. -/
def bindings (d : Dag α) : Call α → Except Fault (Bindings α)
  | named _ b => .ok b
  | ordered root values => d.bindingsAt root values

def run (d : Dag α) : Call α → Evaluator α α
  | named root b => .evaluate d root b
  | ordered root values => .evaluateAt d root values

def runOn (d : Dag α) : Call α → Ledger α → Access (Except Fault α × Ledger α)
  | named root b, l => Access.evaluate d root b l
  | ordered root values, l => Access.evaluateAt d root values l

def answer (d : Dag α) (call : Call α) : Except Fault α :=
  (call.run d .empty).1

/-- The answers of an evaluator to calls one after the other, and what it has in the end. -/
def runAll (d : Dag α) : List (Call α) → Memo α → List (Except Fault α) × Memo α
  | [], m => ([], m)
  | call :: calls, m =>
    let (answer, m) := call.run d m
    let (answers, m) := runAll d calls m
    (answer :: answers, m)

def runAllOn (d : Dag α) : List (Call α) → Ledger α → Access (List (Except Fault α) × Ledger α)
  | [], l => some ([], l)
  | call :: calls, l => do
    let (answer, l) ← call.runOn d l
    let (answers, l) ← runAllOn d calls l
    return (answer :: answers, l)

/-- What an evaluator has in its memo makes no difference. -/
theorem run_fst (call : Call α) (m : Memo α) : (call.run d m).1 = call.answer d := by
  cases call with
  | named root b => rfl
  | ordered root values =>
    exact (Dag.evaluatorAt_eq m values).trans (Dag.evaluatorAt_eq .empty values).symm

/-- On a ledger a call does what it does with a memo of the same values. -/
theorem runOn_eq (h : d.Lawful) (call : Call α) {l : Ledger α} {m : Memo α} (hs : l.Shows m) :
    ∃ l', call.runOn d l = some (call.answer d, l') ∧ l'.Shows (call.run d m).2 := by
  have hrun : ∃ l', call.runOn d l = some ((call.run d m).1, l') ∧
      l'.Shows (call.run d m).2 := by
    cases call with
    | named root b => exact Access.evaluate_eq h root b l m
    | ordered root values => exact Access.evaluateAt_eq h hs root values
  rwa [run_fst] at hrun

theorem runAll_fst (calls : List (Call α)) (m : Memo α) :
    (runAll d calls m).1 = calls.map (answer d) := by
  induction calls generalizing m with
  | nil => rfl
  | cons call calls ih => exact congrArg₂ List.cons (call.run_fst m) (ih _)

theorem runAllOn_eq (h : d.Lawful) (calls : List (Call α)) {l : Ledger α} {m : Memo α}
    (hs : l.Shows m) :
    ∃ l', runAllOn d calls l = some (calls.map (answer d), l') ∧
      l'.Shows (runAll d calls m).2 := by
  induction calls generalizing l m with
  | nil => exact ⟨l, rfl, hs⟩
  | cons call calls ih =>
    obtain ⟨l₁, hl₁, hs₁⟩ := call.runOn_eq h hs
    obtain ⟨l', hl', hs'⟩ := ih hs₁
    refine ⟨l', ?_, hs'⟩
    rw [runAllOn, hl₁]
    simp [hl']

theorem run_of_answer_eq_ok {call : Call α} {value : α} (ho : call.answer d = .ok value)
    (m : Memo α) :
    ∃ b m', call.bindings d = .ok b ∧ d.evaluateAll call.root b = .ok (value, m') ∧
      call.run d m = (.ok value, m') := by
  have hnamed : ∀ {root b}, (Evaluator.evaluate d root b m).1 = .ok value →
      ∃ m', d.evaluateAll root b = .ok (value, m') ∧
        Evaluator.evaluate d root b m = (.ok value, m') := by
    intro root b ho
    rw [Evaluator.evaluate] at ho ⊢
    rcases he : d.evaluateAll root b with fault | ⟨x, m'⟩
    · rw [he] at ho
      cases ho
    · rw [he] at ho
      cases ho
      exact ⟨m', rfl, rfl⟩
  rw [← run_fst call m] at ho
  cases call with
  | named root b =>
    obtain ⟨m', he, hm⟩ := hnamed ho
    exact ⟨b, m', rfl, he, hm⟩
  | ordered root values =>
    rw [run, Evaluator.evaluateAt] at ho
    rcases hb : d.bindingsAt root values with fault | b
    · rw [hb] at ho
      cases ho
    · rw [hb] at ho
      obtain ⟨m', he, hm⟩ := hnamed ho
      refine ⟨b, m', hb, he, ?_⟩
      rw [run, Evaluator.evaluateAt, hb]
      exact hm

end Call

/-- No values but those of some nodes, and of parts only those of gradients among them. -/
structure Memo.Confined (m : Memo α) (d : Dag α) (nodes : List NodeId) : Prop where
  get?_eq_none : ∀ id, id ∉ nodes → m.get? id = none
  bundle?_eq_none : ∀ id, ¬ (id ∈ nodes ∧ (d.bundle? id).isSome) → m.bundle? id = none

/-- The values in a ledger are those of all nodes under a root, with the values of the operands of
each gradient in order, and no others. -/
structure Ledger.Records (l : Ledger α) (d : Dag α) (ρ : String → α) (root : NodeId) : Prop where
  get?_eq : ∀ id, d.Reaches root id → l.get? id = some (d.denote ρ id)
  get?_eq_none : ∀ id, ¬ d.Reaches root id → l.get? id = none
  bundle?_eq : ∀ id, d.Reaches root id → (d.label? id).any Label.isGradient →
    l.bundle? id = some ((d.operands id).map (d.denote ρ))
  bundle?_eq_none : ∀ id, ¬ (d.Reaches root id ∧ (d.label? id).any Label.isGradient) →
    l.bundle? id = none

namespace Dag

theorem isSome_bundle?_iff (h : d.Lawful) {id : NodeId} :
    (d.bundle? id).isSome ↔ (d.label? id).any Label.isGradient := by
  by_cases hid : id < d.count
  · obtain ⟨⟨label, operands⟩, hn⟩ := exists_node? hid
    rw [bundle?, label?_of_node? hn, hn]
    cases h.admits hn <;> simp [Label.isGradient]
  · have hl : d.label? id = none := Array.getElem?_eq_none (Nat.le_of_not_lt hid)
    simp [bundle?, node?, hl]

variable {m m' : Memo α} {nodes : List NodeId} {root id : NodeId}

/-- The evaluation of a node adds its value and, for a gradient, those of its parts. -/
theorem evaluateNode_eq_ok (he : d.evaluateNode b m id = .ok m') :
    (∃ value, m' = m.insert id value) ∨
    ∃ values value, (d.bundle? id).isSome ∧ m' = (m.insertBundle id values).insert id value := by
  rw [evaluateNode] at he
  split at he
  · exact .inl ⟨_, (Except.ok.inj he).symm⟩
  · split at he
    · exact .inl ⟨_, (Except.ok.inj he).symm⟩
    · cases he
  · obtain ⟨x, -, he⟩ := Except.bind_eq_ok he
    exact .inl ⟨_, (Except.ok.inj he).symm⟩
  · obtain ⟨x, -, he⟩ := Except.bind_eq_ok he
    obtain ⟨y, -, he⟩ := Except.bind_eq_ok he
    exact .inl ⟨_, (Except.ok.inj he).symm⟩
  · next hn =>
    obtain ⟨x, -, he⟩ := Except.bind_eq_ok he
    obtain ⟨xs, -, he⟩ := Except.bind_eq_ok he
    exact .inr ⟨_, _, by simp [bundle?, hn], (Except.ok.inj he).symm⟩
  · cases he

theorem evaluateNode_confined (hm : m.Confined d nodes)
    (he : d.evaluateNode b m id = .ok m') : m'.Confined d (nodes ++ [id]) := by
  have hget : ∀ x value, x ∉ nodes ++ [id] → (m.insert id value).get? x = none := by
    intro x value hx
    rw [List.mem_append, List.mem_singleton, not_or] at hx
    rw [Memo.get?_insert, if_neg (Ne.symm hx.2), hm.get?_eq_none x hx.1]
  have hold : ∀ x, ¬ (x ∈ nodes ++ [id] ∧ (d.bundle? x).isSome) → m.bundle? x = none :=
    fun x hx => hm.bundle?_eq_none x fun hc => hx ⟨List.mem_append_left _ hc.1, hc.2⟩
  rcases evaluateNode_eq_ok he with ⟨value, rfl⟩ | ⟨values, value, hb, rfl⟩
  · exact ⟨fun x hx => hget x value hx, hold⟩
  · refine ⟨fun x hx => hget x value hx, fun x hx => ?_⟩
    rw [Memo.bundle?_insert, Memo.bundle?_insertBundle, if_neg, hold x hx]
    rintro rfl
    exact hx ⟨List.mem_append_right _ (List.mem_singleton_self id), hb⟩

theorem foldlM_evaluateNode_confined {todo : List NodeId} (hm : m.Confined d nodes)
    (he : todo.foldlM (d.evaluateNode b) m = .ok m') : m'.Confined d (nodes ++ todo) := by
  induction todo generalizing nodes m with
  | nil =>
    cases he
    rwa [List.append_nil]
  | cons id todo ih =>
    rw [List.foldlM_cons] at he
    obtain ⟨m₁, hm₁, he⟩ := Except.bind_eq_ok he
    have hall := ih (evaluateNode_confined hm hm₁) he
    rwa [List.append_assoc] at hall

/-- An evaluation that succeeds leaves the values of the nodes under its root and no others. -/
theorem evaluateAll_records (h : d.Lawful) {value : α} {l : Ledger α}
    (he : d.evaluateAll root b = .ok (value, m)) (hs : l.Shows m)
    (hρ : ∀ name x, b name = some x → ρ name = x) :
    value = d.denote ρ root ∧ l.Records d ρ root := by
  have hroot : root < d.count := by
    by_contra hroot
    rw [evaluateAll, check_of_not_lt hroot] at he
    cases he
  have hbound : d.checkBound b (d.freeVars root) = .ok () := by
    cases hc : d.checkBound b (d.freeVars root) with
    | error fault => cases he.symm.trans (evaluateAll_of_unbound hroot hc)
    | ok => rfl
  have hagrees : b.Agrees d root ρ := by
    intro v name hv hname
    have hb := agrees_of_bound h.wellFormed hroot hbound v name hv hname
    rw [hb, hρ name _ hb]
  have hcov := walk_covers h.wellFormed hroot
  obtain ⟨m', hm', hholds⟩ := evaluateAll_eq h hroot hagrees
  obtain ⟨rfl, rfl⟩ := Prod.mk.inj (Except.ok.inj (he.symm.trans hm'))
  have hconfined : m.Confined d (d.walk root).order.toList := by
    rw [evaluateAll] at he
    obtain ⟨_, -, he⟩ := Except.bind_eq_ok he
    obtain ⟨_, -, he⟩ := Except.bind_eq_ok he
    obtain ⟨m'', hfold, he⟩ := Except.bind_eq_ok he
    obtain ⟨_, -, he⟩ := Except.bind_eq_ok he
    cases he
    have hempty : Memo.empty.Confined d [] := ⟨by simp, by simp⟩
    exact foldlM_evaluateNode_confined hempty hfold
  refine ⟨rfl, fun id hr => ?_, fun id hr => ?_, fun id hr hg => ?_, fun id hr => ?_⟩
  · rw [hs.get?_eq, hholds.get?_eq id ((hcov.mem_order_iff id).2 hr)]
  · rw [hs.get?_eq, hconfined.get?_eq_none id fun hm => hr ((hcov.mem_order_iff id).1 hm)]
  · obtain ⟨parts, hp⟩ := Option.isSome_iff_exists.1 ((isSome_bundle?_iff h).2 hg)
    rw [hs.bundle?_eq, hholds.bundle?_eq id ((hcov.mem_order_iff id).2 hr) parts hp,
      operands_of_node? (bundle?_eq_some_iff.1 hp)]
  · rw [hs.bundle?_eq, hconfined.bundle?_eq_none id]
    rintro ⟨hm, hb⟩
    exact hr ⟨(hcov.mem_order_iff id).1 hm, (isSome_bundle?_iff h).1 hb⟩

/-- An evaluator may be used again and again, after successes and failures with any roots and
environments. To each of any calls it answers what a fresh one answers. After a further call that
has an answer it has the values, in the environment of that call, of the nodes under the root and of
no others, and those of the operands of the gradients among them. It is the same on a ledger whose
places are cleared and used again, and on which no access is out of range. -/
theorem Reachable.evaluator_reuse (h : d.Reachable) (calls : List (Call α)) :
    (Call.runAll d calls .empty).1 = calls.map (Call.answer d) ∧
    ∃ l, Call.runAllOn d calls .empty = some (calls.map (Call.answer d), l) ∧
      l.Shows (Call.runAll d calls .empty).2 ∧
      ∀ call : Call α, ∃ l' m',
        call.run d (Call.runAll d calls .empty).2 = (call.answer d, m') ∧
        call.runOn d l = some (call.answer d, l') ∧ l'.Shows m' ∧
        ∀ value, call.answer d = .ok value → ∃ b, call.bindings d = .ok b ∧
          ∀ ρ : String → α, (∀ name x, b name = some x → ρ name = x) →
            value = d.denote ρ call.root ∧ l'.Records d ρ call.root := by
  have hd := h.lawful
  obtain ⟨l, hl, hs⟩ := Call.runAllOn_eq hd calls Ledger.shows_empty
  refine ⟨Call.runAll_fst calls .empty, l, hl, hs, fun call => ?_⟩
  obtain ⟨l', hl', hs'⟩ := call.runOn_eq hd hs
  have hrun : call.run d (Call.runAll d calls .empty).2 =
      (call.answer d, (call.run d (Call.runAll d calls .empty).2).2) :=
    congrArg (·, _) (call.run_fst _)
  refine ⟨l', _, hrun, hl', hs', fun value ho => ?_⟩
  obtain ⟨b, m', hb, he, hm'⟩ := Call.run_of_answer_eq_ok ho (Call.runAll d calls .empty).2
  rw [hm'] at hs'
  exact ⟨b, hb, fun ρ hρ => evaluateAll_records hd he hs' hρ⟩

/-- Two failures, one of them before anything is cleared, leave no trace in the evaluation of the
gradient of `x * y`. Its parts are at hand then, but not the bundle around it, which is not under
it. -/
theorem nestedBundle_evaluator_reuse : ∃ l l' : Ledger Double,
    Call.runAllOn nestedBundle [.named 6 fun _ => none, .ordered 5 [Double.one]] .empty =
      some ([.error (.unboundVariable "x"), .error (.valueCount 2 1)], l) ∧
    (Call.named 5 fun _ => some Double.one).runOn nestedBundle l =
      some (.ok (nestedBundle.denote (fun _ => Double.one) 5), l') ∧
    l'.bundle? 5 = some ([2, 1, 0].map (nestedBundle.denote fun _ => Double.one)) ∧
    l'.get? 6 = none ∧ l'.bundle? 6 = none := by
  have hwell := reachable_nestedBundle.lawful.wellFormed
  have hcount : nestedBundle.count = 7 := by cbv
  have hunbound : (Call.named 6 fun _ => none).answer nestedBundle =
      .error (.unboundVariable "x") := by cbv
  have hshort : (Call.ordered 5 [Double.one]).answer nestedBundle = .error (.valueCount 2 1) := by
    cbv
  have hvalue : (Call.named 5 fun _ => some Double.one).answer nestedBundle =
      .ok (nestedBundle.denote (fun _ => Double.one) 5) :=
    (evaluator_eq .empty _).trans <|
      evaluate_eq reachable_nestedBundle.lawful (by rw [hcount]; decide) fun _ _ _ _ => rfl
  have hoperands : nestedBundle.operands 5 = [2, 1, 0] := by cbv
  have houtside : ¬ nestedBundle.Reaches 5 6 := fun hr => absurd (hr.le hwell) (by decide)
  obtain ⟨-, l, hl, -, hcall⟩ := reachable_nestedBundle.evaluator_reuse
    [.named 6 fun _ => none, .ordered 5 [Double.one]]
  obtain ⟨l', m', -, hl', -, hrecords⟩ := hcall (.named 5 fun _ => some Double.one)
  obtain ⟨b, hb, hrecords⟩ := hrecords _ hvalue
  obtain ⟨-, hrecords⟩ := hrecords (fun _ => Double.one) fun name x hx => by
    cases hb
    exact Option.some.inj hx
  refine ⟨l, l', ?_, hvalue ▸ hl', ?_, hrecords.get?_eq_none 6 houtside,
    hrecords.bundle?_eq_none 6 fun hc => houtside hc.1⟩
  · rw [hl, List.map_cons, List.map_cons, List.map_nil, hunbound, hshort]
  · exact hoperands ▸ hrecords.bundle?_eq 5 .refl (by cbv)

end Dag

end SharedExpr

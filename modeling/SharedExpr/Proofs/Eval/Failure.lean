import Mathlib
import SharedExpr.Proofs.Eval.Reuse

/-! What an evaluator has after a call that fails. A failed call by name leaves nothing. A failed
call in the order of the names finds its fault before anything is cleared, and leaves what there
was. -/
namespace SharedExpr

variable {α : Type} {l : Ledger α} {m : Memo α}

/-- There are no values of nodes, nor of the parts of gradients. -/
def Memo.IsBlank (m : Memo α) : Prop :=
  ∀ id, m.get? id = none ∧ m.bundle? id = none

def Ledger.IsBlank (l : Ledger α) : Prop :=
  ∀ id, l.get? id = none ∧ l.bundle? id = none

theorem Memo.isBlank_empty : (empty : Memo α).IsBlank := by
  simp [IsBlank]

theorem Ledger.Shows.isBlank_iff (hs : l.Shows m) : l.IsBlank ↔ m.IsBlank := by
  simp only [IsBlank, Memo.IsBlank, hs.get?_eq, hs.bundle?_eq]

variable [Scalar α] {d : Dag α}

theorem Dag.evaluateAll_not_isBlank {root : NodeId} {b : Bindings α} {value : α}
    (he : d.evaluateAll root b = .ok (value, m)) : ¬ m.IsBlank := by
  rw [evaluateAll] at he
  obtain ⟨_, -, he⟩ := Except.bind_eq_ok he
  obtain ⟨_, -, he⟩ := Except.bind_eq_ok he
  obtain ⟨_, -, he⟩ := Except.bind_eq_ok he
  obtain ⟨_, hv, he⟩ := Except.bind_eq_ok he
  cases he
  intro hb
  rw [Memo.value, (hb root).1] at hv
  cases hv

/-- Values that fit are all that evaluation in the order of the names asks for. -/
theorem Dag.bindingsAt_eq_error (h : d.Lawful) {root : NodeId} {values : List α} {fault : Fault}
    (he : d.evaluateAt root values = .error fault) : d.bindingsAt root values = .error fault := by
  rw [evaluateAt] at he
  cases hb : d.bindingsAt root values with
  | error =>
    rw [hb] at he
    cases he
    rfl
  | ok b =>
    have hroot : root < d.count := by
      by_contra hroot
      rw [bindingsAt_of_foreign hroot] at hb
      cases hb
    have hv : values.length = (d.varNames root).length := by
      by_contra hv
      rw [bindingsAt_of_ne h hroot hv] at hb
      cases hb
    rw [← evaluateAt, (evaluateAt_eq h hroot hv).1] at he
    cases he

namespace Call

def isNamed : Call α → Bool
  | named .. => true
  | ordered .. => false

/-- Whether there are values after a call, told from whether there were any before it. -/
def keeps (d : Dag α) (kept : Bool) (call : Call α) : Bool :=
  match call.answer d with
  | .ok _ => true
  | .error _ => kept && !call.isNamed

/-- Whether there are values after calls: one of them has succeeded, and since then no call by name
has failed. -/
def keepsAll (d : Dag α) (calls : List (Call α)) : Bool :=
  calls.foldl (keeps d) false

theorem run_of_answer_eq_error (h : d.Lawful) {call : Call α} {fault : Fault}
    (ha : call.answer d = .error fault) (m : Memo α) :
    (call.run d m).2 = if call.isNamed then .empty else m := by
  cases call with
  | named root b =>
    have he : d.evaluate root b = .error fault := (Dag.evaluator_eq .empty b).symm.trans ha
    rw [Dag.evaluate] at he
    show (Evaluator.evaluate d root b m).2 = .empty
    rw [Evaluator.evaluate]
    cases hall : d.evaluateAll root b with
    | error => rfl
    | ok =>
      rw [hall] at he
      cases he
  | ordered root values =>
    have he : d.evaluateAt root values = .error fault :=
      (Dag.evaluatorAt_eq .empty values).symm.trans ha
    show (Evaluator.evaluateAt d root values m).2 = m
    rw [Evaluator.evaluateAt, Dag.bindingsAt_eq_error h he]

/-- A ledger on which values in the order of the names fail to fit is not touched. -/
theorem runOn_ordered (h : d.Lawful) {root : NodeId} {values : List α} {fault : Fault}
    (ha : (ordered root values).answer d = .error fault) (l : Ledger α) :
    (ordered root values).runOn d l = some (.error fault, l) := by
  have he : d.evaluateAt root values = .error fault :=
    (Dag.evaluatorAt_eq .empty values).symm.trans ha
  show Access.evaluateAt d root values l = _
  rw [Access.evaluateAt, Access.bindingsAt_eq h.wellFormed, Dag.bindingsAt_eq_error h he]
  rfl

theorem isBlank_run_iff (h : d.Lawful) (call : Call α) {kept : Bool}
    (hm : m.IsBlank ↔ kept = false) : (call.run d m).2.IsBlank ↔ call.keeps d kept = false := by
  rw [keeps]
  cases ha : call.answer d with
  | ok value =>
    obtain ⟨b, m', -, he, hrun⟩ := run_of_answer_eq_ok ha m
    rw [hrun]
    exact iff_of_false (Dag.evaluateAll_not_isBlank he) (by simp)
  | error fault =>
    rw [run_of_answer_eq_error h ha]
    cases call.isNamed with
    | true => simp [Memo.isBlank_empty]
    | false => simp [hm]

theorem isBlank_runAll_iff (h : d.Lawful) (calls : List (Call α)) {kept : Bool}
    (hm : m.IsBlank ↔ kept = false) :
    (runAll d calls m).2.IsBlank ↔ calls.foldl (keeps d) kept = false := by
  induction calls generalizing m kept with
  | nil => exact hm
  | cons call calls ih => exact ih (isBlank_run_iff h call hm)

end Call

namespace Dag

/-- A call that fails leaves an evaluator without values if and only if the call came by name, or
there were no values before: none of the earlier calls had succeeded, or a call by name had failed
since. A call in the order of the names leaves the ledger as it is. -/
theorem Reachable.failure_isBlank_iff (h : d.Reachable) (calls : List (Call α)) {call : Call α}
    {fault : Fault} (hfail : call.answer d = .error fault) :
    ∃ l l', Call.runAllOn d calls .empty = some (calls.map (Call.answer d), l) ∧
      call.runOn d l = some (.error fault, l') ∧
      (l'.IsBlank ↔ call.isNamed ∨ Call.keepsAll d calls = false) ∧
      (l.IsBlank ↔ Call.keepsAll d calls = false) ∧
      (call.isNamed = false → l' = l) := by
  have hd := h.lawful
  obtain ⟨l, hl, hs⟩ := Call.runAllOn_eq hd calls Ledger.shows_empty
  obtain ⟨l', hl', hs'⟩ := call.runOn_eq hd hs
  have hblank : l.IsBlank ↔ Call.keepsAll d calls = false :=
    hs.isBlank_iff.trans (Call.isBlank_runAll_iff hd calls (by simp [Memo.isBlank_empty]))
  refine ⟨l, l', hl, by rw [hl', hfail], ?_, hblank, fun hnamed => ?_⟩
  · rw [hs'.isBlank_iff, Call.run_of_answer_eq_error hd hfail, ← hblank, hs.isBlank_iff]
    cases call.isNamed with
    | true => simp [Memo.isBlank_empty]
    | false => simp
  · cases call with
    | named => cases hnamed
    | ordered root values =>
      rw [Call.runOn_ordered hd hfail] at hl'
      exact (congrArg Prod.snd (Option.some.inj hl')).symm

/-- A product is evaluated, and then again without values for its variables. The ledger is empty
after that. -/
theorem product_failure_isBlank : ∃ (value : Double) (l l' : Ledger Double),
    Call.runAllOn product [.named 2 fun _ => some Double.one] .empty = some ([.ok value], l) ∧
    ¬ l.IsBlank ∧
    (Call.named 2 fun _ => none).runOn product l = some (.error (.unboundVariable "x"), l') ∧
    l'.IsBlank := by
  have hcount : product.count = 3 := by cbv
  have hvalue : (Call.named 2 fun _ => some Double.one).answer product =
      .ok (product.denote (fun _ => Double.one) 2) :=
    (evaluator_eq .empty _).trans <|
      evaluate_eq reachable_product.lawful (by rw [hcount]; decide) fun _ _ _ _ => rfl
  have hfail : (Call.named 2 fun _ => none).answer product = .error (.unboundVariable "x") := by cbv
  obtain ⟨l, l', hl, hl', hblank, hbefore, -⟩ :=
    reachable_product.failure_isBlank_iff [.named 2 fun _ => some Double.one] hfail
  refine ⟨product.denote (fun _ => Double.one) 2, l, l', ?_, ?_, hl', hblank.2 (.inl rfl)⟩
  · rw [hl, List.map_singleton, hvalue]
  · rw [hbefore, Call.keepsAll, List.foldl_cons, List.foldl_nil, Call.keeps, hvalue]
    simp

def single : Dag Double :=
  ((Command.var "x").run empty).2

theorem reachable_single : single.Reachable := by
  have ho : ((Command.var "x").run (empty : Dag Double)).1 = some (.node 0) := by cbv
  exact Reachable.empty.next ho

/-- The variable is evaluated at one, and then at no value. After this failure its value is still
there. -/
theorem single_failure_keeps : single.Reachable ∧ ∃ l : Ledger Double,
    Call.runAllOn single [.named 0 fun _ => some Double.one] .empty = some ([.ok Double.one], l) ∧
    (Call.ordered 0 []).runOn single l = some (.error (.valueCount 1 0), l) ∧
    l.get? 0 = some Double.one := by
  have hd := reachable_single.lawful
  have hvalue : (Call.named 0 fun _ => some Double.one).answer single = .ok Double.one := by cbv
  have hfail : (Call.ordered 0 []).answer single = .error (.valueCount 1 0) := by cbv
  have hget : (Call.runAll single [.named 0 fun _ => some Double.one] .empty).2.get? 0 =
      some Double.one := by cbv
  obtain ⟨l, hl, hs⟩ := Call.runAllOn_eq hd [.named 0 fun _ => some Double.one] Ledger.shows_empty
  refine ⟨reachable_single, l, ?_, Call.runOn_ordered hd hfail l, (hs.get?_eq 0).trans hget⟩
  rw [hl, List.map_singleton, hvalue]

end Dag

end SharedExpr

import Mathlib
import SharedExpr.Double.Basic
import SharedExpr.Proofs.Dag.ByteOrder
import SharedExpr.Proofs.Eval.Results
import SharedExpr.Proofs.Gradient.Signature
import SharedExpr.Proofs.Session

/-! What becomes of an evaluation: a misuse, a variable without a value, or the value of the node by
recursion. -/
namespace SharedExpr

namespace Bindings

variable {α : Type} {names : List String} {values : List α}

theorem ofLists_getElem (hn : names.Nodup) {i : Nat} (hi : i < names.length)
    (hv : i < values.length) : ofLists names values names[i] = some values[i] := by
  induction names generalizing values i with
  | nil => cases hi
  | cons name names ih =>
    obtain ⟨hname, hn⟩ := List.nodup_cons.1 hn
    cases values with
    | nil => cases hv
    | cons value values =>
      cases i with
      | zero => simp [ofLists]
      | succ i =>
        have hi := Nat.lt_of_succ_lt_succ hi
        have hne : names[i] ≠ name := fun he => hname (he ▸ List.getElem_mem hi)
        rw [ofLists, List.zip_cons_cons, List.getElem_cons_succ, List.lookup_cons,
          beq_false_of_ne hne]
        exact ih hn hi (Nat.lt_of_succ_lt_succ hv)

theorem ofLists_of_not_mem {name : String} (hn : name ∉ names) :
    ofLists names values name = none := by
  rw [ofLists, List.lookup_eq_none_iff]
  rintro ⟨n, x⟩ hm
  have hne : name ≠ n := fun he => hn (he ▸ (List.of_mem_zip hm).1)
  simpa using hne

end Bindings

namespace Dag

variable {α : Type} [Scalar α] {d : Dag α} {root : NodeId} {b : Bindings α}

/-- There is a variable of this name under the node, and it has no value. -/
def Unbound (d : Dag α) (b : Bindings α) (root : NodeId) (name : String) : Prop :=
  ∃ v, d.Reaches root v ∧ d.name? v = some name ∧ b name = none

/-- The name of a variable without a value, before the names of all others by its bytes. -/
structure FirstUnbound (d : Dag α) (b : Bindings α) (root : NodeId) (name : String) : Prop where
  unbound : d.Unbound b root name
  first : ∀ other, d.Unbound b root other → other ≠ name → bytes name < bytes other

theorem FirstUnbound.eq {a c : String} (ha : d.FirstUnbound b root a)
    (hc : d.FirstUnbound b root c) : a = c := by
  by_contra hne
  exact List.lt_asymm (ha.first c hc.unbound (Ne.symm hne)) (hc.first a ha.unbound hne)

theorem checkBound_error (h : d.Lawful) (hroot : root < d.count) {fault : Fault}
    (hc : d.checkBound b (d.freeVars root) = .error fault) :
    ∃ name, d.FirstUnbound b root name ∧ fault = .unboundVariable name := by
  have hcov := walk_covers h.wellFormed hroot
  obtain ⟨done, v, todo, hvars, hdone, hv⟩ := forM_eq_error hc
  have hmem : ∀ {w}, w ∈ done ++ v :: todo ↔ d.Reaches root w ∧ (d.name? w).isSome := by
    intro w
    rw [← hvars]
    exact hcov.mem_freeVars_iff
  obtain ⟨hreach, hsome⟩ := hmem.1 (List.mem_append_right done List.mem_cons_self)
  obtain ⟨name, hname⟩ := Option.isSome_iff_exists.1 hsome
  have hb : b name = none := by
    by_contra hb
    simp [hname, Option.isSome_iff_ne_none.2 hb] at hv
  refine ⟨name, ⟨⟨v, hreach, hname, hb⟩, ?_⟩, by simpa [hname, hb] using hv.symm⟩
  rintro other ⟨w, hw, hother, hnone⟩ hne
  have hsorted := hcov.freeVars_increasing h
  rw [show (d.walk root).freeVars = done ++ v :: todo from hvars, List.pairwise_append,
    List.pairwise_cons] at hsorted
  rcases List.mem_append.1 (hmem.2 ⟨hw, Option.isSome_of_eq_some hother⟩) with hm | hm
  · simpa [hother, hnone] using hdone w hm
  · rcases List.mem_cons.1 hm with rfl | hm
    · exact absurd (Option.some.inj (hother.symm.trans hname)) hne
    · have hlt := hsorted.2.1.1 w hm
      rw [hname, hother] at hlt
      exact bytes_lt hlt

/-- The evaluation of a node fails at the first name without a value, or answers its value under
every assignment that the bindings are a part of. -/
theorem evaluate_cases (h : d.Lawful) (hroot : root < d.count) (b : Bindings α) :
    (∃ name, d.FirstUnbound b root name ∧ d.evaluate root b = .error (.unboundVariable name)) ∨
    ((∀ name, ¬ d.Unbound b root name) ∧ ∃ value, d.evaluate root b = .ok value ∧
      ∀ ρ : String → α, (∀ name x, b name = some x → ρ name = x) → value = d.denote ρ root) := by
  cases hc : d.checkBound b (d.freeVars root) with
  | error fault =>
    obtain ⟨name, hname, rfl⟩ := checkBound_error h hroot hc
    refine Or.inl ⟨name, hname, ?_⟩
    rw [evaluate, evaluateAll_of_unbound hroot hc]
    rfl
  | ok =>
    have hagrees := agrees_of_bound h.wellFormed hroot hc
    refine Or.inr ⟨?_, _, evaluate_eq h hroot hagrees, fun ρ hρ => ?_⟩
    · rintro name ⟨v, hv, hname, hb⟩
      cases hb.symm.trans (hagrees v name hv hname)
    · have hρ : b.Agrees d root ρ := by
        intro v name hv hname
        have hb := hagrees v name hv hname
        rw [hb, hρ name _ hb]
      exact Except.ok.inj ((evaluate_eq h hroot hagrees).symm.trans (evaluate_eq h hroot hρ))

theorem evaluate_of_foreign (hroot : ¬ root < d.count) (b : Bindings α) :
    d.evaluate root b = .error (.foreign root) := by
  rw [evaluate, evaluateAll, check_of_not_lt hroot]
  rfl

theorem bindingsAt_of_ne (h : d.Lawful) (hroot : root < d.count) {values : List α}
    (hv : values.length ≠ (d.varNames root).length) :
    d.bindingsAt root values =
      .error (.valueCount (d.varNames root).length values.length) := by
  have hne : (d.freeVars root).length ≠ values.length := fun he =>
    hv (he.symm.trans (length_varNames h hroot).symm)
  rw [bindingsAt, check_of_lt hroot, length_varNames h hroot]
  simp [bind, Except.bind, hne, throw, throwThe, MonadExceptOf.throw]

theorem bindingsAt_of_foreign (hroot : ¬ root < d.count) (values : List α) :
    d.bindingsAt root values = .error (.foreign root) := by
  rw [bindingsAt, check_of_not_lt hroot]
  rfl

theorem mem_varNames_iff (h : d.Lawful) (hroot : root < d.count) {name : String} :
    name ∈ d.varNames root ↔ ∃ v, d.Reaches root v ∧ d.name? v = some name := by
  constructor
  · intro hm
    obtain ⟨v, hv, hname⟩ := List.mem_filterMap.1 hm
    exact ⟨v, ((walk_covers h.wellFormed hroot).mem_freeVars_iff.1 hv).1, hname⟩
  · rintro ⟨v, hv, hname⟩
    exact mem_varNames h hroot hv hname

theorem varNames_increasing (h : d.Lawful) (hroot : root < d.count) :
    (d.varNames root).Pairwise (bytes · < bytes ·) :=
  (varNames_spec h hroot).2.imp bytes_lt

theorem evaluate_eq_misuse_iff (h : d.Lawful) {cause : Misuse} :
    d.evaluate root b = .error (.misuse cause) ↔ ¬ root < d.count ∧ cause = .foreign root := by
  by_cases hroot : root < d.count
  · refine iff_of_false ?_ fun hc => hc.1 hroot
    rcases evaluate_cases h hroot b with ⟨name, -, hb⟩ | ⟨-, value, hb, -⟩ <;> simp [hb]
  · rw [evaluate_of_foreign hroot]
    simp [Fault.foreign, hroot, eq_comm]

theorem evaluate_unbound (h : d.Lawful) :
    ((∃ name, d.evaluate root b = .error (.unboundVariable name)) ↔
        root < d.count ∧ ∃ name, d.Unbound b root name) ∧
      ∀ name, d.evaluate root b = .error (.unboundVariable name) → d.FirstUnbound b root name := by
  by_cases hroot : root < d.count
  · rcases evaluate_cases h hroot b with ⟨name, hname, hb⟩ | ⟨hnone, value, hb, -⟩
    · rw [hb]
      refine ⟨iff_of_true ⟨name, rfl⟩ ⟨hroot, name, hname.unbound⟩, fun other ho => ?_⟩
      cases ho
      exact hname
    · rw [hb]
      exact ⟨iff_of_false (by simp) fun ⟨_, name, hn⟩ => hnone name hn, nofun⟩
  · rw [evaluate_of_foreign hroot]
    exact ⟨iff_of_false (by simp [Fault.foreign]) fun hc => hroot hc.1, nofun⟩

theorem evaluate_eq_ok_iff (h : d.Lawful) {ρ : String → α}
    (hρ : ∀ name x, b name = some x → ρ name = x) {value : α} :
    d.evaluate root b = .ok value ↔
      root < d.count ∧ (∀ name, ¬ d.Unbound b root name) ∧ value = d.denote ρ root := by
  by_cases hroot : root < d.count
  · rcases evaluate_cases h hroot b with ⟨name, hname, hb⟩ | ⟨hnone, x, hb, hx⟩
    · rw [hb]
      exact iff_of_false nofun fun hc => hc.2.1 name hname.unbound
    · rw [hb, hx ρ hρ]
      simp [hroot, hnone, eq_comm]
  · rw [evaluate_of_foreign hroot]
    exact iff_of_false nofun fun hc => hroot hc.1

/-- Values by the order of names fail to pair up with the names, or they are a value for each
name. -/
theorem evaluateAt_values (h : d.Lawful) (hroot : root < d.count) (values : List α) :
    (∀ k n, d.evaluateAt root values = .error (.valueCount k n) ↔
        k = (d.varNames root).length ∧ n = values.length ∧ n ≠ k) ∧
      (values.length = (d.varNames root).length →
        d.evaluateAt root values = d.evaluate root (.ofLists (d.varNames root) values)) := by
  by_cases hv : values.length = (d.varNames root).length
  · rw [evaluateAt, bindingsAt_of_eq h hroot hv]
    refine ⟨fun k n => iff_of_false ?_ fun hc => hc.2.2 (by rw [hc.1, hc.2.1, hv]), fun _ => rfl⟩
    show d.evaluate root _ ≠ _
    rcases evaluate_cases h hroot (.ofLists (d.varNames root) values) with
      ⟨name, -, hb⟩ | ⟨-, value, hb, -⟩ <;> simp [hb]
  · rw [evaluateAt, bindingsAt_of_ne h hroot hv]
    refine ⟨fun k n => ⟨fun hc => ?_, fun hc => ?_⟩, fun hc => absurd hc hv⟩
    · cases hc
      exact ⟨rfl, rfl, hv⟩
    · obtain ⟨rfl, rfl, -⟩ := hc
      rfl

theorem evaluator_eq (m : Memo α) (b : Bindings α) :
    (Evaluator.evaluate d root b m).1 = d.evaluate root b := by
  rw [Evaluator.evaluate, evaluate]
  cases d.evaluateAll root b <;> rfl

theorem evaluatorAt_eq (m : Memo α) (values : List α) :
    (Evaluator.evaluateAt d root values m).1 = d.evaluateAt root values := by
  rw [Evaluator.evaluateAt, evaluateAt]
  cases d.bindingsAt root values with
  | error fault => rfl
  | ok b => exact evaluator_eq m b

/-- The outcome of evaluation, whatever numbers the operators are of. It is a misuse if and only if
the root is no node of the graph. Otherwise it is a missing variable if and only if one under the
root has no value, and the first such by name is named. Otherwise it is the value of the root by
recursion on the expression under it, as a tree. The values of variables are given in the order of
the bytes of their names just as by name, and a wrong number of them is told apart. What an
evaluator has in its memo makes no difference. -/
theorem Reachable.evaluate_outcome (h : d.Reachable) (root : NodeId) :
    (∀ b cause, d.evaluate root b = .error (.misuse cause) ↔
      ¬ root < d.count ∧ cause = .foreign root) ∧
    (∀ b, ((∃ name, d.evaluate root b = .error (.unboundVariable name)) ↔
        root < d.count ∧ ∃ name, d.Unbound b root name) ∧
      ∀ name, d.evaluate root b = .error (.unboundVariable name) → d.FirstUnbound b root name) ∧
    (∀ b (ρ : String → α), (∀ name x, b name = some x → ρ name = x) →
      ∀ value, d.evaluate root b = .ok value ↔
        root < d.count ∧ (∀ name, ¬ d.Unbound b root name) ∧ value = d.denote ρ root) ∧
    (∀ values, ¬ root < d.count → d.evaluateAt root values = .error (.foreign root)) ∧
    (root < d.count → ∃ names : List String, names.Pairwise (bytes · < bytes ·) ∧
      (∀ name, name ∈ names ↔ ∃ v, d.Reaches root v ∧ d.name? v = some name) ∧
      ∀ values, (∀ k n, d.evaluateAt root values = .error (.valueCount k n) ↔
          k = names.length ∧ n = values.length ∧ n ≠ k) ∧
        (values.length = names.length → ∃ b : Bindings α,
          (∀ i (hi : i < names.length) (hv : i < values.length), b names[i] = some values[i]) ∧
          (∀ name, name ∉ names → b name = none) ∧
          d.evaluateAt root values = d.evaluate root b)) ∧
    ∀ m, (∀ b, (Evaluator.evaluate d root b m).1 = d.evaluate root b) ∧
      ∀ values, (Evaluator.evaluateAt d root values m).1 = d.evaluateAt root values := by
  have hd := h.lawful
  refine ⟨fun b cause => evaluate_eq_misuse_iff hd, fun b => evaluate_unbound hd,
    fun b ρ hρ value => evaluate_eq_ok_iff hd hρ, fun values hroot => ?_, fun hroot => ?_,
    fun m => ⟨evaluator_eq m, evaluatorAt_eq m⟩⟩
  · rw [evaluateAt, bindingsAt_of_foreign hroot]
    rfl
  · refine ⟨d.varNames root, varNames_increasing hd hroot, fun name => mem_varNames_iff hd hroot,
      fun values => ?_⟩
    obtain ⟨hcount, hvalues⟩ := evaluateAt_values hd hroot values
    refine ⟨hcount, fun hv => ⟨_, fun i hi hv => ?_, fun name hn => ?_, hvalues hv⟩⟩
    · exact Bindings.ofLists_getElem (nodup_varNames hd hroot) hi hv
    · exact Bindings.ofLists_of_not_mem hn

/-- In `x * y` with a value for `x` only it is `y` that is missing. With a value for both, the
product has its value by recursion. It has two variables, and there is no fourth node. -/
theorem product_evaluate_outcome :
    product.evaluate 3 (fun _ => some Double.one) = .error (.foreign 3) ∧
    product.FirstUnbound (.ofLists ["x"] [Double.one]) 2 "y" ∧
    product.evaluate 2 (fun _ => some Double.one) =
      .ok (product.denote (fun _ => Double.one) 2) ∧
    ∃ names : List String, names.length = 2 ∧
      ∀ name ∈ names, ∃ v, product.Reaches 2 v ∧ product.name? v = some name := by
  have hcount : product.count = 3 := by cbv
  have hroot : (2 : NodeId) < product.count := by rw [hcount]; decide
  have hforeign := (reachable_product.evaluate_outcome 3).1
  obtain ⟨-, hunbound, hvalue, -, hnames, -⟩ := reachable_product.evaluate_outcome 2
  refine ⟨(hforeign _ _).2 ⟨by rw [hcount]; decide, rfl⟩, (hunbound _).2 "y" (by cbv),
    (hvalue _ _ (by simp) _).2 ⟨hroot, ?_, rfl⟩, ?_⟩
  · rintro name ⟨v, -, -, hb⟩
    cases hb
  · obtain ⟨names, -, hmem, hvalues⟩ := hnames hroot
    have hone : product.evaluateAt 2 [Double.one] = .error (.valueCount 2 1) := by cbv
    exact ⟨names, (((hvalues _).1 2 1).1 hone).1.symm, fun name => (hmem name).1⟩

end Dag

end SharedExpr

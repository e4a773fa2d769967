import Mathlib
import SharedExpr.Proofs.Eval.Outcome

/-! Samples that are evaluated side by side: whatever is done first, and whichever failure is
reported, they come to what they come to one after the other. -/
namespace SharedExpr

variable {α : Type}

/-- An evaluation under way. It has a memo of its own. -/
inductive Worker (α : Type) where
  | waiting (b : Bindings α)
  /-- The nodes that are left have the other ones in the memo before them. -/
  | running (b : Bindings α) (m : Memo α) (todo : List NodeId)
  | done (outcome : Except Fault α)

/-- Evaluations side by side, one for each sample in order. -/
abbrev Pool (α : Type) :=
  List (Worker α)

variable [Scalar α]

def Dag.checkInputs (d : Dag α) (root : NodeId) (b : Bindings α) : Except Fault Unit := do
  d.check root
  d.checkBound b (d.walk root).freeVars

namespace Worker

/-- Goes on by a node, if there is anything left to do. -/
def step? (d : Dag α) (root : NodeId) : Worker α → Option (Worker α)
  | waiting b =>
    match d.checkInputs root b with
    | .ok () => some (running b .empty (d.walk root).order.toList)
    | .error fault => some (done (.error fault))
  | running b m (node :: todo) =>
    match d.evaluateNode b m node with
    | .ok m => some (running b m todo)
    | .error fault => some (done (.error fault))
  | running _ m [] => some (done (m.value root))
  | done _ => none

/-- What an evaluation comes to by itself. -/
def outcome (d : Dag α) (root : NodeId) : Worker α → Except Fault α
  | waiting b => d.evaluate root b
  | running b m todo => do
    let m ← todo.foldlM (d.evaluateNode b) m
    m.value root
  | done outcome => outcome

def size (d : Dag α) (root : NodeId) : Worker α → Nat
  | waiting _ => (d.walk root).order.toList.length + 2
  | running _ _ todo => todo.length + 1
  | done _ => 0

end Worker

namespace Pool

inductive Step (d : Dag α) (root : NodeId) : Pool α → Pool α → Prop
  | mk (before after : Pool α) {w w' : Worker α} (h : w.step? d root = some w') :
    Step d root (before ++ w :: after) (before ++ w' :: after)

abbrev Runs (d : Dag α) (root : NodeId) : Pool α → Pool α → Prop :=
  Relation.ReflTransGen (Step d root)

def start (var : String) (xs : List α) (b : Bindings α) : Pool α :=
  xs.map fun x => .waiting (b.set var x)

/-- What may be reported: all values in order, or any of the failures, as soon as it is there. -/
inductive Collects (pool : Pool α) : Except Fault (List α) → Prop
  | ok (values : List α) (h : pool = values.map fun value => .done (.ok value)) :
    Collects pool (.ok values)
  | error {fault : Fault} (h : .done (.error fault) ∈ pool) : Collects pool (.error fault)

end Pool

variable {d : Dag α} {root : NodeId}

namespace Worker

variable {w w' : Worker α}

/-- An evaluation goes through the nodes in order if its check succeeds. -/
theorem outcome_waiting (b : Bindings α) :
    (waiting b).outcome d root = (d.checkInputs root b).bind fun _ =>
      (running b .empty (d.walk root).order.toList).outcome d root := by
  rw [outcome, Dag.evaluate, Dag.evaluateAll, Dag.checkInputs]
  simp only [bind, Except.bind]
  cases d.check root with
  | error fault => rfl
  | ok =>
    dsimp only
    cases d.checkBound b (d.walk root).freeVars with
    | error fault => rfl
    | ok =>
      simp only [outcome, bind, Except.bind]
      cases (d.walk root).order.toList.foldlM (d.evaluateNode b) Memo.empty with
      | error fault => rfl
      | ok m =>
        dsimp only
        cases m.value root <;> rfl

theorem outcome_running_cons (b : Bindings α) (m : Memo α) (node : NodeId) (todo : List NodeId) :
    (running b m (node :: todo)).outcome d root = (d.evaluateNode b m node).bind fun m =>
      (running b m todo).outcome d root := by
  rw [outcome, List.foldlM_cons, bind_assoc]
  rfl

/-- A step changes nothing about the outcome, and leaves less to do. -/
theorem step (h : w.step? d root = some w') :
    w'.outcome d root = w.outcome d root ∧ w'.size d root < w.size d root := by
  cases w with
  | waiting b =>
    rw [step?] at h
    rw [outcome_waiting]
    cases ha : d.checkInputs root b with
    | error fault =>
      rw [ha] at h
      cases h
      exact ⟨rfl, Nat.succ_pos _⟩
    | ok =>
      rw [ha] at h
      cases h
      exact ⟨rfl, Nat.lt_succ_self _⟩
  | running b m todo =>
    cases todo with
    | nil =>
      cases h
      exact ⟨rfl, Nat.succ_pos _⟩
    | cons node todo =>
      rw [step?] at h
      rw [outcome_running_cons]
      cases hn : d.evaluateNode b m node with
      | error fault =>
        rw [hn] at h
        cases h
        exact ⟨rfl, Nat.succ_pos _⟩
      | ok m' =>
        rw [hn] at h
        cases h
        exact ⟨rfl, Nat.lt_succ_self _⟩
  | done o => cases h

theorem exists_step_or_done (d : Dag α) (root : NodeId) (w : Worker α) :
    (∃ w', w.step? d root = some w') ∨ ∃ outcome, w = done outcome := by
  cases w with
  | waiting b =>
    rw [step?]
    cases d.checkInputs root b <;> exact Or.inl ⟨_, rfl⟩
  | running b m todo =>
    cases todo with
    | nil => exact Or.inl ⟨_, rfl⟩
    | cons node todo =>
      rw [step?]
      cases d.evaluateNode b m node <;> exact Or.inl ⟨_, rfl⟩
  | done o => exact Or.inr ⟨o, rfl⟩

end Worker

namespace Pool

variable {pool pool' : Pool α}

def outcomes (d : Dag α) (root : NodeId) (pool : Pool α) : List (Except Fault α) :=
  pool.map (Worker.outcome d root)

theorem outcomes_step (h : Step d root pool pool') :
    outcomes d root pool' = outcomes d root pool := by
  obtain ⟨before, after, h⟩ := h
  simp only [outcomes, List.map_append, List.map_cons, (Worker.step h).1]

theorem outcomes_runs (h : Runs d root pool pool') :
    outcomes d root pool' = outcomes d root pool := by
  induction h with
  | refl => rfl
  | tail _ hstep ih => rw [outcomes_step hstep, ih]

theorem wellFounded_step (d : Dag α) (root : NodeId) :
    WellFounded fun pool' pool : Pool α => Step d root pool pool' := by
  refine Subrelation.wf ?_ (measure fun pool : Pool α => (pool.map (Worker.size d root)).sum).wf
  rintro _ _ ⟨before, after, h⟩
  have hlt := (Worker.step h).2
  simp only [WellFoundedRelation.rel, InvImage, List.map_append, List.map_cons, List.sum_append,
    List.sum_cons]
  omega

/-- As long as nothing can be reported an evaluation can go on. -/
theorem exists_collects_or_step (d : Dag α) (root : NodeId) (pool : Pool α) :
    (∃ outcome, pool.Collects outcome) ∨ ∃ pool', Step d root pool pool' := by
  induction pool with
  | nil => exact Or.inl ⟨_, .ok [] rfl⟩
  | cons w pool ih =>
    rcases w.exists_step_or_done d root with ⟨w', hw⟩ | ⟨fault | value, rfl⟩
    · exact Or.inr ⟨_, .mk [] pool hw⟩
    · exact Or.inl ⟨_, .error List.mem_cons_self⟩
    · rcases ih with ⟨_, hc⟩ | ⟨_, ⟨before, after, hw⟩⟩
      · cases hc with
        | ok values hpool => exact Or.inl ⟨_, .ok (value :: values) (by rw [hpool]; rfl)⟩
        | error hm => exact Or.inl ⟨_, .error (List.mem_cons_of_mem _ hm)⟩
      · exact Or.inr ⟨_, .mk (_ :: before) after hw⟩

end Pool

theorem mapM_eq_ok_iff {β γ : Type} {f : β → Except Fault γ} {xs : List β} {ys : List γ} :
    xs.mapM f = .ok ys ↔ List.Forall₂ (fun x y => f x = .ok y) xs ys := by
  induction xs generalizing ys with
  | nil =>
    rw [List.mapM_nil, List.forall₂_nil_left_iff]
    exact ⟨fun h => (Except.ok.inj h).symm, fun h => h ▸ rfl⟩
  | cons x xs ih =>
    rw [List.mapM_cons, List.forall₂_cons_left_iff]
    constructor
    · intro h
      obtain ⟨y, hy, h⟩ := Except.bind_eq_ok h
      obtain ⟨ys', hys, h⟩ := Except.bind_eq_ok h
      exact ⟨y, ys', hy, ih.1 hys, (Except.ok.inj h).symm⟩
    · rintro ⟨y, ys', hy, hys, rfl⟩
      rw [hy, ih.2 hys]
      rfl

theorem exists_of_mapM_eq_error {β γ : Type} {f : β → Except Fault γ} {xs : List β} {fault : Fault}
    (h : xs.mapM f = .error fault) : ∃ x ∈ xs, f x = .error fault := by
  induction xs with
  | nil => cases h
  | cons x xs ih =>
    rw [List.mapM_cons] at h
    cases hx : f x with
    | error fault' =>
      rw [hx] at h
      cases h
      exact ⟨x, List.mem_cons_self, hx⟩
    | ok y =>
      cases hxs : xs.mapM f with
      | error fault' =>
        rw [hx, hxs] at h
        cases h
        obtain ⟨z, hz, hfz⟩ := ih hxs
        exact ⟨z, List.mem_cons_of_mem x hz, hfz⟩
      | ok ys =>
        rw [hx, hxs] at h
        cases h

namespace Dag

variable {b b' : Bindings α} {var : String} {xs : List α}

def HasVariable (d : Dag α) (root : NodeId) (name : String) : Prop :=
  ∃ v, d.Reaches root v ∧ d.name? v = some name

theorem Unbound.congr (hb : ∀ name, d.HasVariable root name → (b name = none → b' name = none))
    {name : String} (h : d.Unbound b root name) : d.Unbound b' root name := by
  obtain ⟨v, hv, hname, hnone⟩ := h
  exact ⟨v, hv, hname, hb name ⟨v, hv, hname⟩ hnone⟩

theorem FirstUnbound.congr
    (hb : ∀ name, d.HasVariable root name → (b name = none ↔ b' name = none)) {name : String}
    (h : d.FirstUnbound b root name) : d.FirstUnbound b' root name where
  unbound := h.unbound.congr fun n hn => (hb n hn).1
  first other ho := h.first other (ho.congr fun n hn => (hb n hn).2)

/-- The failure of an evaluation depends on the names that are bound, not on their values. -/
theorem evaluate_eq_error_congr (h : d.Lawful)
    (hb : ∀ name, d.HasVariable root name → (b name = none ↔ b' name = none)) {fault : Fault}
    (he : d.evaluate root b = .error fault) : d.evaluate root b' = .error fault := by
  by_cases hroot : root < d.count
  · rcases evaluate_cases h hroot b with ⟨name, hname, hfails⟩ | ⟨-, value, hvalue, -⟩
    · rcases evaluate_cases h hroot b' with ⟨other, hother, hfails'⟩ | ⟨hnone, -⟩
      · rw [hfails', hother.eq (hname.congr hb), ← hfails, he]
      · exact absurd (hname.congr hb).unbound (hnone name)
    · cases he.symm.trans hvalue
  · rw [evaluate_of_foreign hroot] at he ⊢
    exact he

/-- The variables under a node decide its value. -/
theorem evaluate_congr (h : d.Lawful) (hb : ∀ name, d.HasVariable root name → b name = b' name) :
    d.evaluate root b = d.evaluate root b' := by
  have hbound : ∀ name, d.HasVariable root name → (b name = none ↔ b' name = none) :=
    fun name hname => by rw [hb name hname]
  by_cases hroot : root < d.count
  · rcases evaluate_cases h hroot b with ⟨name, -, hfails⟩ | ⟨hnone, -⟩
    · rw [hfails, evaluate_eq_error_congr h hbound hfails]
    · have hagrees : b.Agrees d root fun name => (b name).getD Scalar.zero := by
        intro v name hv hname
        cases hx : b name with
        | some x => simp [hx]
        | none => exact absurd ⟨v, hv, hname, hx⟩ (hnone name)
      have hagrees' : b'.Agrees d root fun name => (b name).getD Scalar.zero :=
        fun v name hv hname => (hb name ⟨v, hv, hname⟩).symm.trans (hagrees v name hv hname)
      rw [evaluate_eq h hroot hagrees, evaluate_eq h hroot hagrees']
  · rw [evaluate_of_foreign hroot, evaluate_of_foreign hroot]

/-- Samples fail alike, whatever the value of the variable is. -/
theorem evaluate_set_eq_error (h : d.Lawful) {x : α} {fault : Fault}
    (hx : d.evaluate root (b.set var x) = .error fault) (y : α) :
    d.evaluate root (b.set var y) = .error fault := by
  refine evaluate_eq_error_congr h (fun name _ => ?_) hx
  by_cases hname : name = var <;> simp [Bindings.set, hname]

theorem sample_eq_error_iff (h : d.Lawful) {fault : Fault} :
    d.sample root var xs b = .error fault ↔
      xs ≠ [] ∧ ∀ x ∈ xs, d.evaluate root (b.set var x) = .error fault := by
  constructor
  · intro hs
    obtain ⟨x, hx, hfails⟩ := exists_of_mapM_eq_error hs
    exact ⟨List.ne_nil_of_mem hx, fun y _ => evaluate_set_eq_error h hfails y⟩
  · rintro ⟨hne, hfails⟩
    obtain ⟨x, xs, rfl⟩ := List.exists_cons_of_ne_nil hne
    rw [sample, List.mapM_cons, hfails x List.mem_cons_self]
    rfl

/-- Whatever is reported after any run is what the samples come to one after the other. -/
theorem sample_of_collects (h : d.Lawful) {pool : Pool α}
    (hrun : Pool.Runs d root (Pool.start var xs b) pool) {outcome : Except Fault (List α)}
    (hc : pool.Collects outcome) : d.sample root var xs b = outcome := by
  have houtcomes : Pool.outcomes d root pool =
      xs.map fun x => d.evaluate root (b.set var x) := by
    rw [Pool.outcomes_runs hrun, Pool.outcomes, Pool.start, List.map_map]
    rfl
  cases hc with
  | ok values hpool =>
    refine mapM_eq_ok_iff.2 ?_
    rw [Pool.outcomes, hpool, List.map_map] at houtcomes
    have hall : List.Forall₂ Eq (xs.map fun x => d.evaluate root (b.set var x))
        (values.map .ok) := houtcomes ▸ List.forall₂_refl _
    simpa only [List.forall₂_map_left_iff, List.forall₂_map_right_iff] using hall
  | @error fault hm =>
    have hmem : Except.error fault ∈ Pool.outcomes d root pool := List.mem_map.2 ⟨_, hm, rfl⟩
    rw [houtcomes] at hmem
    obtain ⟨x, hx, hfails⟩ := List.mem_map.1 hmem
    exact (sample_eq_error_iff h).2 ⟨List.ne_nil_of_mem hx,
      fun y _ => evaluate_set_eq_error h hfails y⟩

/-- Samples do not depend on the order in which they are evaluated. Side by side, node by node in
any order, they come to what they come to one after the other, whichever of the failures is
reported; there is always something to report in the end. These are the values of the root in the
order of the samples, or else a failure that all of them share. For the failure of an evaluation
depends only on which of the variables under its root are bound, and its outcome only on their
values. -/
theorem Reachable.sample_any_order (h : d.Reachable) (root : NodeId) (var : String) (xs : List α)
    (b : Bindings α) :
    (∀ pool, Pool.Runs d root (Pool.start var xs b) pool →
      (∀ outcome, pool.Collects outcome → d.sample root var xs b = outcome) ∧
      ((∃ outcome, pool.Collects outcome) ∨ ∃ pool', Pool.Step d root pool pool')) ∧
    (WellFounded fun pool' pool : Pool α => Pool.Step d root pool pool') ∧
    (∀ values, d.sample root var xs b = .ok values ↔
      List.Forall₂ (fun x value => d.evaluate root (b.set var x) = .ok value) xs values) ∧
    (∀ fault, d.sample root var xs b = .error fault ↔
      xs ≠ [] ∧ ∀ x ∈ xs, d.evaluate root (b.set var x) = .error fault) ∧
    (∀ b b' : Bindings α, (∀ name, d.HasVariable root name → (b name = none ↔ b' name = none)) →
      ∀ fault, d.evaluate root b = .error fault ↔ d.evaluate root b' = .error fault) ∧
    ∀ b b' : Bindings α, (∀ name, d.HasVariable root name → b name = b' name) →
      d.evaluate root b = d.evaluate root b' := by
  have hd := h.lawful
  refine ⟨fun pool hrun => ⟨fun outcome => sample_of_collects hd hrun,
    Pool.exists_collects_or_step d root pool⟩, Pool.wellFounded_step d root,
    fun values => mapM_eq_ok_iff, fun fault => sample_eq_error_iff hd,
    fun b b' hb fault => ⟨evaluate_eq_error_congr hd hb, ?_⟩, fun b b' => evaluate_congr hd⟩
  exact evaluate_eq_error_congr hd fun name hname => (hb name hname).symm

/-- Samples of `x * y` without a value for `y`: whatever is done first, it is `y` that is missing.
With a value for `y`, one for `z` makes no difference. -/
theorem product_sample_any_order :
    product.sample 2 "x" [Double.zero, Double.one] (fun _ => none) =
      .error (.unboundVariable "y") ∧
    (∀ pool, Pool.Runs product 2 (Pool.start "x" [Double.zero, Double.one] fun _ => none) pool →
      ∀ outcome, pool.Collects outcome → outcome = .error (.unboundVariable "y")) ∧
    product.evaluate 2 (.ofLists ["x", "y"] [Double.zero, Double.one]) =
      product.evaluate 2 (.ofLists ["x", "y", "z"] [Double.zero, Double.one, Double.one]) := by
  have hroot : (2 : NodeId) < product.count := by
    rw [show product.count = 3 by cbv]
    decide
  have hnames : product.varNames 2 = ["x", "y"] := by cbv
  have hzero : product.evaluate 2 (Bindings.set (fun _ => none) "x" Double.zero) =
      .error (.unboundVariable "y") := by cbv
  have hone : product.evaluate 2 (Bindings.set (fun _ => none) "x" Double.one) =
      .error (.unboundVariable "y") := by cbv
  obtain ⟨hruns, -, -, herror, -, hvalues⟩ :=
    reachable_product.sample_any_order 2 "x" [Double.zero, Double.one] fun _ => none
  have hsample := (herror (.unboundVariable "y")).2 ⟨by simp, by simp [hzero, hone]⟩
  refine ⟨hsample, fun pool hrun outcome hc => ?_, hvalues _ _ fun name hname => ?_⟩
  · rw [← (hruns pool hrun).1 outcome hc, hsample]
  · have hmem := (mem_varNames_iff reachable_product.lawful hroot).2 hname
    rw [hnames] at hmem
    rcases List.mem_cons.1 hmem with rfl | hmem
    · rfl
    · obtain rfl := List.mem_singleton.1 hmem
      rfl

end Dag

end SharedExpr

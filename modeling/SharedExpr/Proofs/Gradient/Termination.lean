import Mathlib.Algebra.BigOperators.Fin
import Mathlib.Algebra.Order.BigOperators.Group.Finset
import SharedExpr.Proofs.Dag.Walk
import SharedExpr.Proofs.Gradient.Growth

/-! Summations come to an end within their budget of steps. -/
namespace SharedExpr

variable {α : Type} [Scalar α]

/-- Every use of a node is by a younger node. -/
def Walk.Climbs (w : Walk) : Prop :=
  ∀ id, ∀ use ∈ (w.usesOf id).toList, id < use.consumer ∧ use.consumer < w.uses.size

theorem Walk.Covers.climbs {d : Dag α} (hd : d.WellFormed) {root : NodeId} (hroot : root < d.count)
    {w : Walk} (h : Covers d root w) : w.Climbs := by
  intro id use huse
  obtain ⟨hr, hx⟩ := h.mem_usesOf_iff.1 huse
  exact ⟨hd.operands_lt _ id (List.mem_of_getElem? hx), h.uses_size ▸ hr.lt_count hd hroot⟩

namespace Adjoints

/-- Works off a stack of summations to the end, in as many steps as it takes. -/
inductive Runs : List Frame → Adjoints → Dag α → Except Fault Unit × Adjoints × Dag α → Prop
  | done (t : Adjoints) (d : Dag α) : Runs [] t d (.ok (), t, d)
  | fail {top : Frame} {rest : List Frame} {t t' : Adjoints} {d d' : Dag α} {fault : Fault}
    (hs : step top rest t d = (.error fault, t', d')) :
    Runs (top :: rest) t d (.error fault, t', d')
  | next {top : Frame} {rest stack : List Frame} {t t' : Adjoints} {d d' : Dag α}
    {r : Except Fault Unit × Adjoints × Dag α} (hs : step top rest t d = (.ok stack, t', d'))
    (h : Runs stack t' d' r) : Runs (top :: rest) t d r

variable {d d' : Dag α} {t t' : Adjoints} {top : Frame} {rest stack : List Frame}

theorem Runs.eq {r r' : Except Fault Unit × Adjoints × Dag α} (h : Runs stack t d r)
    (h' : Runs stack t d r') : r = r' := by
  induction h with
  | done => cases h' with | done => rfl
  | fail hs =>
    cases h' with
    | fail hs' => cases hs.symm.trans hs'; rfl
    | next hs' => cases hs.symm.trans hs'
  | next hs _ ih =>
    cases h' with
    | fail hs' => cases hs.symm.trans hs'
    | next hs' h' =>
      cases hs.symm.trans hs'
      exact ih h'

theorem Runs.grows {r : Except Fault Unit × Adjoints × Dag α} (h : Runs stack t d r)
    (hd : d.Lawful) (hs : Sums d stack t d) : d.Grows r.2.2 := by
  induction h with
  | done t d => exact .refl d
  | fail hstep => exact (hs.step_error hd hstep).1
  | next hstep _ ih =>
    have hs' := hs.step_ok hd hstep
    exact hs'.grows.trans (ih (hs'.grows.lawful hd) hs'.self)

theorem memo_insert (t : Adjoints) (node adjoint id : NodeId) :
    (t.insert node adjoint).memo[id]? = if node = id then some adjoint else t.memo[id]? := by
  simp [insert, Std.HashMap.getElem?_insert]

theorem memo_of_insert {node adjoint id : NodeId} (h : (t.insert node adjoint).memo[id]? = none) :
    node ≠ id ∧ t.memo[id]? = none := by
  rw [memo_insert] at h
  split at h
  · cases h
  · next hne => exact ⟨hne, h⟩

/-- The root and the walk stay, and adjoints that are known remain so. -/
structure Keeps (t t' : Adjoints) : Prop where
  root_eq : t'.root = t.root
  walk_eq : t'.walk = t.walk
  memo : ∀ id : NodeId, t'.memo[id]? = none → t.memo[id]? = none

theorem Keeps.refl (t : Adjoints) : Keeps t t :=
  ⟨rfl, rfl, fun _ h => h⟩

theorem Keeps.trans {t'' : Adjoints} (h : Keeps t t') (h' : Keeps t' t'') : Keeps t t'' :=
  ⟨h'.root_eq.trans h.root_eq, h'.walk_eq.trans h.walk_eq, fun id hid => h.memo id (h'.memo id hid)⟩

theorem keeps_insert (t : Adjoints) (node adjoint : NodeId) : Keeps t (t.insert node adjoint) :=
  ⟨rfl, rfl, fun _ h => (memo_of_insert h).2⟩

theorem keeps_known? {node : NodeId} {o : Option NodeId} (hk : t.known? node d = (o, t', d')) :
    Keeps t t' := by
  rcases known?_cases t node d with ⟨a, -, h⟩ | ⟨-, -, h⟩ | ⟨-, -, h⟩
  · cases h.symm.trans hk
    exact .refl t
  · cases h.symm.trans hk
    exact keeps_insert _ _ _
  · cases h.symm.trans hk
    exact .refl t

theorem keeps_step {o : Except Fault (List Frame)} (hs : step top rest t d = (o, t', d')) :
    Keeps t t' := by
  cases o with
  | error fault =>
    obtain ⟨use, pending, weight, d₁, -, hk, -⟩ := step_error hs
    exact keeps_known? hk
  | ok stack =>
    cases step_cases hs with
    | finish => exact keeps_insert _ _ _
    | descend => exact .refl t
    | add _ hk => exact keeps_known? hk

theorem Runs.keeps {r : Except Fault Unit × Adjoints × Dag α} (h : Runs stack t d r) :
    Keeps t r.2.1 := by
  induction h with
  | done => exact .refl _
  | fail hs => exact keeps_step hs
  | next hs _ ih => exact (keeps_step hs).trans ih

/-- A successful run leaves an adjoint for each summation on the stack. -/
theorem Runs.memo_isSome {r : Except Fault Unit × Adjoints × Dag α} (h : Runs stack t d r)
    (hr : r.1 = .ok ()) : ∀ frame ∈ stack, (r.2.1.memo[frame.node]?).isSome := by
  induction h with
  | done => simp
  | fail => cases hr
  | @next top rest stack t t' d d' r hs h ih =>
    have hstack := ih hr
    cases step_cases hs with
    | finish =>
      intro frame hf
      rcases List.mem_cons.1 hf with rfl | hf
      · rw [Option.isSome_iff_ne_none]
        exact fun hn => (memo_of_insert (h.keeps.memo _ hn)).1 rfl
      · exact hstack frame hf
    | descend => exact fun frame hf => hstack frame (List.mem_cons_of_mem _ hf)
    | add =>
      intro frame hf
      rcases List.mem_cons.1 hf with rfl | hf
      · exact (List.forall_mem_cons.1 hstack).1
      · exact hstack frame (List.mem_cons_of_mem _ hf)

/-- The summations on a stack: each one is for the sake of the one below it, of an older node, and
what is pending of it is by younger nodes. -/
structure Stacked (w : Walk) (stack : List Frame) : Prop where
  rising : stack.Pairwise fun above below => below.node < above.node
  climbs : ∀ frame ∈ stack, ∀ use ∈ frame.pending,
    frame.node < use.consumer ∧ use.consumer < w.uses.size

theorem stacked_frame (hw : t.walk.Climbs) (node : NodeId) (d : Dag α) :
    Stacked t.walk [(t.frame node d).1] :=
  ⟨List.pairwise_singleton _ _, List.forall_mem_singleton.2 (hw node)⟩

theorem Stacked.step (hw : t.walk.Climbs) (hs : Stacked t.walk (top :: rest))
    (h : Step top rest t d stack t' d') : Stacked t'.walk stack := by
  obtain ⟨hrising, hclimbs⟩ := hs
  obtain ⟨htop, hrest⟩ := List.pairwise_cons.1 hrising
  have hclimbs' := fun frame hf => hclimbs frame (List.mem_cons_of_mem _ hf)
  cases h with
  | finish => exact ⟨hrest, hclimbs'⟩
  | @descend use pending hp =>
    obtain ⟨hlt, -⟩ := hclimbs top List.mem_cons_self use (by simp [hp])
    refine ⟨List.pairwise_cons.2 ⟨fun frame hf => ?_, hrising⟩, fun frame hf => ?_⟩
    · rcases List.mem_cons.1 hf with rfl | hf
      · exact hlt
      · exact Nat.lt_trans (htop frame hf) hlt
    · rcases List.mem_cons.1 hf with rfl | hf
      · exact hw use.consumer
      · exact hclimbs frame hf
  | @add use pending _ _ _ _ _ hp hk =>
    rw [(keeps_known? hk).walk_eq]
    refine ⟨List.pairwise_cons.2 ⟨htop, hrest⟩, fun frame hf => ?_⟩
    rcases List.mem_cons.1 hf with rfl | hf
    · exact fun use hu => hclimbs top List.mem_cons_self use (hp ▸ List.mem_cons_of_mem _ hu)
    · exact hclimbs' frame hf

/-- The nodes that are neither summed up nor on the stack. -/
def fresh (t : Adjoints) (stack : List Frame) : Finset NodeId :=
  (Finset.range t.walk.uses.size).filter fun id =>
    t.memo[id]? = none ∧ ∀ frame ∈ stack, frame.node ≠ id

/-- The steps for the summation of a node: it goes on the stack, adds its uses and is taken off. -/
def work (t : Adjoints) (id : NodeId) : Nat :=
  (t.walk.usesOf id).size + 2

/-- The steps that are left at most: for what is on the stack and for what may still be put on. -/
def cost (t : Adjoints) (stack : List Frame) : Nat :=
  (stack.map fun frame => frame.pending.length + 1).sum + ∑ id ∈ t.fresh stack, t.work id

theorem mem_fresh {id : NodeId} : id ∈ t.fresh stack ↔
    id < t.walk.uses.size ∧ t.memo[id]? = none ∧ ∀ frame ∈ stack, frame.node ≠ id := by
  rw [fresh, Finset.mem_filter, Finset.mem_range]

theorem fresh_subset (hk : Keeps t t') (stack stack' : List Frame)
    (hn : ∀ frame ∈ stack, t'.memo[frame.node]? = none →
      ∃ frame' ∈ stack', frame'.node = frame.node) :
    t'.fresh stack' ⊆ t.fresh stack := by
  intro id hid
  obtain ⟨hlt, hm, hne⟩ := mem_fresh.1 hid
  refine mem_fresh.2 ⟨hk.walk_eq ▸ hlt, hk.memo id hm, fun frame hf heq => ?_⟩
  obtain ⟨frame', hf', heq'⟩ := hn frame hf (heq ▸ hm)
  exact hne frame' hf' (heq'.trans heq)

theorem fresh_cons (t : Adjoints) (frame : Frame) (stack : List Frame) :
    t.fresh (frame :: stack) = (t.fresh stack).erase frame.node := by
  ext id
  rw [Finset.mem_erase, mem_fresh, mem_fresh, List.forall_mem_cons]
  constructor
  · exact fun ⟨hid, hnone, hne, hothers⟩ => ⟨Ne.symm hne, hid, hnone, hothers⟩
  · exact fun ⟨hne, hid, hnone, hothers⟩ => ⟨hid, hnone, Ne.symm hne, hothers⟩

theorem fresh_finish (t : Adjoints) (top : Frame) (rest : List Frame) :
    (t.insert top.node top.sum).fresh rest ⊆ t.fresh (top :: rest) := by
  refine fresh_subset (keeps_insert t top.node top.sum) (top :: rest) rest fun frame hf hm => ?_
  rcases List.mem_cons.1 hf with rfl | hf
  · exact absurd rfl (memo_of_insert hm).1
  · exact ⟨frame, hf, rfl⟩

theorem fresh_add (hk : Keeps t t') (top : Frame) (pending : List Use) (sum : NodeId)
    (rest : List Frame) : t'.fresh (⟨top.node, pending, sum⟩ :: rest) ⊆ t.fresh (top :: rest) := by
  refine fresh_subset hk (top :: rest) _ fun frame hf _ => ?_
  rcases List.mem_cons.1 hf with rfl | hf
  · exact ⟨_, List.mem_cons_self, rfl⟩
  · exact ⟨frame, List.mem_cons_of_mem _ hf, rfl⟩

/-- A consumer that is to be summed first is fresh: it is younger than all that is on the stack. -/
theorem Stacked.mem_fresh (hs : Stacked t.walk (top :: rest)) {use : Use}
    (hu : use ∈ top.pending) (hm : t.memo[use.consumer]? = none) :
    use.consumer ∈ t.fresh (top :: rest) := by
  obtain ⟨hlt, hsize⟩ := hs.climbs top List.mem_cons_self use hu
  refine Adjoints.mem_fresh.2 ⟨hsize, hm, fun frame hf => ?_⟩
  rcases List.mem_cons.1 hf with rfl | hf
  · exact Nat.ne_of_lt hlt
  · exact Nat.ne_of_lt (Nat.lt_trans ((List.pairwise_cons.1 hs.rising).1 frame hf) hlt)

theorem sum_fresh_le (hk : Keeps t t') {stack' : List Frame}
    (hs : t'.fresh stack' ⊆ t.fresh stack) :
    ∑ id ∈ t'.fresh stack', t'.work id ≤ ∑ id ∈ t.fresh stack, t.work id := by
  have hwork : t'.work = t.work := funext fun id => by rw [work, work, hk.walk_eq]
  rw [hwork]
  exact Finset.sum_le_sum_of_subset hs

theorem Step.cost_lt (hs : Stacked t.walk (top :: rest)) (h : Step top rest t d stack t' d') :
    t'.cost stack < t.cost (top :: rest) := by
  cases h with
  | finish =>
    have hle := sum_fresh_le (keeps_insert t top.node top.sum) (t.fresh_finish top rest)
    simp only [cost, List.map_cons, List.sum_cons]
    omega
  | @descend use pending hp hm =>
    have hsum := Finset.add_sum_erase _ t.work (hs.mem_fresh (by simp [hp]) hm)
    have hwork : t.work use.consumer = (t.walk.usesOf use.consumer).size + 2 := rfl
    simp only [cost, List.map_cons, List.sum_cons, fresh_cons _ _ (top :: rest),
      Array.length_toList]
    omega
  | @add use pending weight slope t₁ d₁ d₂ hp hk =>
    have hkeeps := keeps_known? hk
    have hle := sum_fresh_le hkeeps
      (fresh_add hkeeps top pending (accumulate top.sum weight slope d₂).1 rest)
    simp only [cost, List.map_cons, List.sum_cons, hp, List.length_cons]
    omega

/-- With more steps than that a run comes to its end. -/
theorem runs_run (hw : t.walk.Climbs) (hs : Stacked t.walk stack) {steps : Nat}
    (hc : t.cost stack < steps) : Runs stack t d (run steps stack t d) := by
  induction steps generalizing stack t d with
  | zero => exact absurd hc (Nat.not_lt_zero _)
  | succ steps ih =>
    cases stack with
    | nil => exact .done t d
    | cons top rest =>
      rw [run_succ_cons]
      rcases hstep : step top rest t d with ⟨o, t₁, d₁⟩
      cases o with
      | error fault => exact .fail hstep
      | ok stack =>
        have hcases := step_cases hstep
        have hlt := hcases.cost_lt hs
        exact .next hstep (ih ((keeps_step hstep).walk_eq ▸ hw) (hs.step hw hcases) (by omega))

theorem sum_size_usesOf (w : Walk) :
    ∑ id ∈ Finset.range w.uses.size, (w.usesOf id).size =
      w.uses.foldl (fun n uses => n + uses.size) 0 := by
  have hfold : ∀ (xs : List (Array Use)) (n : Nat),
      xs.foldl (fun n uses => n + uses.size) n = n + (xs.map Array.size).sum := by
    intro xs
    induction xs with
    | nil => simp
    | cons uses xs ih =>
      intro n
      rw [List.foldl_cons, ih, List.map_cons, List.sum_cons, Nat.add_assoc]
  rw [← Array.foldl_toList, hfold, Nat.zero_add, ← Fin.sum_univ_fun_getElem, Finset.sum_range]
  refine Fintype.sum_equiv (finCongr Array.length_toList.symm) _ _ fun i => ?_
  simp [Walk.usesOf]

theorem sum_fresh_singleton_le {node : NodeId} (hm : t.memo[node]? = none) (pending : List Use)
    (sum : NodeId) {f : NodeId → Nat} (hf : ∀ id, (t.walk.usesOf id).size ≤ f id) :
    (t.walk.usesOf node).size + ∑ id ∈ t.fresh [⟨node, pending, sum⟩], f id ≤
      ∑ id ∈ t.fresh [], f id := by
  rw [fresh_cons]
  by_cases hn : node ∈ t.fresh []
  · rw [← Finset.add_sum_erase _ f hn]
    exact Nat.add_le_add_right (hf node) _
  · have hnone : (t.walk.usesOf node).size = 0 := by
      have hsize : ¬ node < t.walk.uses.size := fun hlt => hn (mem_fresh.2 ⟨hlt, hm, by simp⟩)
      simp [Walk.usesOf, Array.getD_eq_getD_getElem?, Nat.le_of_not_lt hsize]
    rw [hnone, Nat.zero_add]
    exact Finset.sum_le_sum_of_subset (Finset.erase_subset _ _)

theorem cost_lt_budget {node : NodeId} (hm : t.memo[node]? = none) (sum : NodeId) :
    t.cost [⟨node, (t.walk.usesOf node).toList, sum⟩] < t.budget := by
  have hfirst := sum_fresh_singleton_le hm (t.walk.usesOf node).toList sum
    (f := t.work) fun id => Nat.le_add_right _ 2
  have hall : ∑ id ∈ t.fresh [], t.work id ≤
      2 * t.walk.uses.size + t.walk.uses.foldl (fun n uses => n + uses.size) 0 := by
    refine Nat.le_trans (Finset.sum_le_sum_of_subset (Finset.filter_subset _ _)) ?_
    simp only [work, Finset.sum_add_distrib, sum_size_usesOf, Finset.sum_const,
      Finset.card_range, smul_eq_mul]
    omega
  simp only [cost, List.map_cons, List.map_nil, List.sum_cons, List.sum_nil, Array.length_toList,
    budget]
  omega

/-- The ways in which the adjoint of a node is found, or fails to be. -/
inductive Finds (node : NodeId) (t : Adjoints) (d : Dag α) :
    Except Fault NodeId × Adjoints × Dag α → Prop
  | known {a : NodeId} {t' : Adjoints} {d' : Dag α} (hk : t.known? node d = (some a, t', d')) :
    Finds node t d (.ok a, t', d')
  | fail {fault : Fault} {t' : Adjoints} {d' : Dag α} (hm : t.memo[node]? = none)
    (hne : node ≠ t.root)
    (h : Runs [(t.frame node d).1] t (t.frame node d).2 (.error fault, t', d')) :
    Finds node t d (.error fault, t', d')
  | sum {a : NodeId} {t' : Adjoints} {d' : Dag α} (hm : t.memo[node]? = none)
    (hne : node ≠ t.root) (h : Runs [(t.frame node d).1] t (t.frame node d).2 (.ok (), t', d'))
    (ha : t'.memo[node]? = some a) : Finds node t d (.ok a, t', d')

theorem Finds.keeps {node : NodeId} {r : Except Fault NodeId × Adjoints × Dag α}
    (h : Finds node t d r) : Keeps t r.2.1 := by
  cases h with
  | known hk => exact keeps_known? hk
  | fail _ _ h => exact h.keeps
  | sum _ _ h => exact h.keeps

theorem Finds.eq {node : NodeId} {r r' : Except Fault NodeId × Adjoints × Dag α}
    (h : Finds node t d r) (h' : Finds node t d r') : r = r' := by
  cases h with
  | known h =>
    cases h' with
    | known h' => cases h.symm.trans h'; rfl
    | fail hm hne => cases h.symm.trans (known?_of_none hm hne)
    | sum hm hne => cases h.symm.trans (known?_of_none hm hne)
  | fail hm hne h =>
    cases h' with
    | known h' => cases h'.symm.trans (known?_of_none hm hne)
    | fail _ _ h' => cases h.eq h'; rfl
    | sum _ _ h' => cases h.eq h'
  | sum hm hne h ha =>
    cases h' with
    | known h' => cases h'.symm.trans (known?_of_none hm hne)
    | fail _ _ h' => cases h.eq h'
    | sum _ _ h' ha' =>
      cases h.eq h'
      cases ha.symm.trans ha'
      rfl

/-- A summation always leads to an adjoint or to the failure of a derivative. -/
theorem finds_adjoint (hw : t.walk.Climbs) (node : NodeId) (d : Dag α) :
    Finds node t d (t.adjoint node d) := by
  rw [adjoint]
  rcases hk : t.known? node d with ⟨a, t₁, d₁⟩
  cases a with
  | some a => exact .known hk
  | none =>
    obtain ⟨hm, hne, rfl, rfl⟩ := known?_eq_none hk
    dsimp only
    have hrun := runs_run (d := (t₁.frame node d₁).2) hw (stacked_frame hw node d₁)
      (cost_lt_budget hm _)
    rcases hr : run t₁.budget [(t₁.frame node d₁).1] t₁ (t₁.frame node d₁).2 with ⟨o, t₂, d₂⟩
    rw [hr] at hrun
    cases o with
    | error fault => exact .fail hm hne hrun
    | ok =>
      obtain ⟨a, ha⟩ := Option.isSome_iff_exists.1
        (hrun.memo_isSome rfl (t₁.frame node d₁).1 List.mem_cons_self)
      have ha : t₂.memo[node]? = some a := ha
      simp only [ha]
      exact .sum hm hne hrun ha

end Adjoints

end SharedExpr

import Mathlib.Algebra.BigOperators.Group.Finset.Piecewise
import Mathlib.Algebra.BigOperators.Ring.List
import SharedExpr.Proofs.Dag.Walk
import SharedExpr.Proofs.Gradient.Slope

/-! The derivative of a root is the same summed up from the leaves or down from the root. -/
namespace SharedExpr

variable {K : Type} [Field K] [ExactScalar K]

namespace Dag

/-- The derivative of a root with respect to a node under it, as the sum over the uses of the node
that the walk of the root has met. -/
def adjoint (d : Dag K) (ρ : String → K) (root : NodeId) (w : Walk) (id : NodeId) : K :=
  if id = root then 1
  else ((w.usesOf id).toList.map fun use =>
    if _h : id < use.consumer ∧ use.consumer ≤ root then
      d.adjoint ρ root w use.consumer * d.partialAt ρ use
    else 0).sum
termination_by root - id
decreasing_by exact Nat.sub_lt_sub_left (Nat.lt_of_lt_of_le _h.1 _h.2) _h.1

variable {d : Dag K} {ρ : String → K} {root : NodeId} {w : Walk}

theorem adjoint_root (d : Dag K) (ρ : String → K) (root : NodeId) (w : Walk) :
    d.adjoint ρ root w root = 1 := by
  rw [adjoint, if_pos rfl]

theorem adjoint_eq (hw : d.WellFormed) (hc : Walk.Covers d root w) {id : NodeId} (hid : id ≠ root) :
    d.adjoint ρ root w id =
      ((w.usesOf id).toList.map fun use =>
        d.adjoint ρ root w use.consumer * d.partialAt ρ use).sum := by
  rw [adjoint, if_neg hid]
  refine congrArg List.sum (List.map_congr_left fun use hu => dif_pos ?_)
  obtain ⟨hr, hx⟩ := hc.mem_usesOf_iff.1 hu
  exact ⟨hw.operands_lt _ id (List.mem_of_getElem? hx), hr.le hw⟩

end Dag

/-- A sum over pairs is one over all first parts of the sums over the pairs with that part. -/
theorem sum_map_eq_sum_filter {β M : Type} [AddCommMonoid M] (g : NodeId × β → M)
    {order : List NodeId} (ho : order.Nodup) {pairs : List (NodeId × β)}
    (hp : ∀ pair ∈ pairs, pair.1 ∈ order) :
    (pairs.map g).sum =
      (order.map fun id => ((pairs.filter (·.1 = id)).map g).sum).sum := by
  rw [← List.sum_toFinset _ ho]
  induction pairs with
  | nil => simp
  | cons pair pairs ih =>
    have hmem : pair.1 ∈ order.toFinset := List.mem_toFinset.2 (hp pair List.mem_cons_self)
    have hcons : ∀ id, (((pair :: pairs).filter (·.1 = id)).map g).sum =
        (if pair.1 = id then g pair else 0) + ((pairs.filter (·.1 = id)).map g).sum := by
      intro id
      by_cases h : pair.1 = id <;> simp [h]
    simp only [hcons, Finset.sum_add_distrib]
    rw [Finset.sum_ite_eq, if_pos hmem, List.map_cons, List.sum_cons,
      ih fun pair hm => hp pair (List.mem_cons_of_mem _ hm)]

namespace Dag

variable {d : Dag K} {ρ : String → K} {root : NodeId} {w : Walk}

/-- What a slot adds to the derivative of the root: the adjoint of the consumer, the derivative of
the consumer along the slot and the derivative of the operand. -/
def contribution (d : Dag K) (ρ : String → K) (root : NodeId) (w : Walk) (v : NodeId)
    (slot : NodeId × Use) : K :=
  d.adjoint ρ root w slot.2.consumer * d.partialAt ρ slot.2 * d.slope ρ v slot.1

/-- Read by consumers, the contributions of its slots make up the derivative of a node. -/
theorem adjoint_mul_slope (h : d.Lawful) {v : NodeId} (hv : (d.name? v).isSome) {id : NodeId}
    (hid : id < d.count) :
    d.adjoint ρ root w id * d.slope ρ v id =
      (if id = v then d.adjoint ρ root w v else 0) +
        ((Walk.slots d id).map (d.contribution ρ root w v)).sum := by
  have hconsumer : (Walk.slots d id).map (d.contribution ρ root w v) =
      (Walk.slots d id).map fun slot =>
        d.adjoint ρ root w id * (d.partialAt ρ slot.2 * d.slope ρ v slot.1) := by
    refine List.map_congr_left fun slot hs => ?_
    obtain ⟨x, -, rfl⟩ := List.mem_map.1 hs
    exact mul_assoc _ _ _
  rw [slope_eq_sum h hv hid, mul_add, mul_ite, mul_one, mul_zero, hconsumer, List.sum_map_mul_left]
  split
  · next hid => rw [hid]
  · rfl

/-- Read by operands, the contributions of the uses of a node make up its adjoint. -/
theorem sum_contributions (hw : d.WellFormed) (hc : Walk.Covers d root w) (v : NodeId)
    {id : NodeId} :
    (((w.order.toList.flatMap (Walk.slots d)).filter (·.1 = id)).map
        (d.contribution ρ root w v)).sum =
      if id = root then 0 else d.adjoint ρ root w id * d.slope ρ v id := by
  have hsum : (((w.order.toList.flatMap (Walk.slots d)).filter (·.1 = id)).map
        (d.contribution ρ root w v)).sum =
      ((w.usesOf id).toList.map fun use =>
        d.adjoint ρ root w use.consumer * d.partialAt ρ use).sum * d.slope ρ v id := by
    have hmap : ((w.order.toList.flatMap (Walk.slots d)).filter (·.1 = id)).map
          (d.contribution ρ root w v) =
        (Walk.usesAmong id (w.order.toList.flatMap (Walk.slots d))).map fun use =>
          d.adjoint ρ root w use.consumer * d.partialAt ρ use * d.slope ρ v id := by
      rw [Walk.usesAmong, List.map_map]
      refine List.map_congr_left fun slot hs => ?_
      obtain rfl : slot.1 = id := by simpa using (List.mem_filter.1 hs).2
      rfl
    rw [hmap, ← ((hc.uses_perm id).map _).sum_eq, List.sum_map_mul_right]
  rw [hsum]
  split
  · next hid =>
    have hnone : (w.usesOf id).toList = [] := by
      refine List.eq_nil_iff_forall_not_mem.2 fun use hu => ?_
      obtain ⟨hr, hx⟩ := hc.mem_usesOf_iff.1 hu
      have hlt := hw.operands_lt _ id (List.mem_of_getElem? hx)
      exact Nat.lt_irrefl root (Nat.lt_of_lt_of_le (hid ▸ hlt) (hr.le hw))
    rw [hnone, List.map_nil, List.sum_nil, zero_mul]
  · next hid => rw [adjoint_eq hw hc hid]

/-- Summed up from the operands or down from the consumers, the derivative of the root is the
same. -/
theorem slope_root (h : d.Lawful) (hroot : root < d.count) (hc : Walk.Covers d root w) {v : NodeId}
    (hv : v ∈ w.freeVars) : d.slope ρ v root = d.adjoint ρ root w v := by
  have hw := h.wellFormed
  obtain ⟨hvr, hname⟩ := hc.mem_freeVars_iff.1 hv
  let total (f : NodeId → K) : K := ∑ id ∈ w.order.toList.toFinset, f id
  have hlist : ∀ f : NodeId → K, (w.order.toList.map f).sum = total f :=
    fun f => (List.sum_toFinset f hc.nodup).symm
  have hmem : ∀ {id : NodeId}, d.Reaches root id → id ∈ w.order.toList.toFinset :=
    fun hr => List.mem_toFinset.2 ((hc.mem_order_iff _).2 hr)
  have hconsumers : total (fun id => d.adjoint ρ root w id * d.slope ρ v id) =
      d.adjoint ρ root w v +
        ((w.order.toList.flatMap (Walk.slots d)).map (d.contribution ρ root w v)).sum := by
    have hterm : ∀ id ∈ w.order.toList, d.adjoint ρ root w id * d.slope ρ v id =
        (if id = v then d.adjoint ρ root w v else 0) +
          ((Walk.slots d id).map (d.contribution ρ root w v)).sum :=
      fun id hid => adjoint_mul_slope h hname (hc.order_lt hw hroot id hid)
    rw [← hlist, List.map_congr_left hterm, List.sum_map_add, hlist, List.map_flatMap,
      List.flatMap_def, List.sum_flatten, List.map_map]
    congr 1
    show ∑ id ∈ _, _ = _
    rw [Finset.sum_ite_eq', if_pos (hmem hvr)]
  have hoperands : ((w.order.toList.flatMap (Walk.slots d)).map (d.contribution ρ root w v)).sum =
      total fun id => if id = root then 0 else d.adjoint ρ root w id * d.slope ρ v id := by
    have hpairs : ∀ slot ∈ w.order.toList.flatMap (Walk.slots d), slot.1 ∈ w.order.toList := by
      intro slot hs
      obtain ⟨id, hid, hs⟩ := List.mem_flatMap.1 hs
      obtain ⟨x, hx, rfl⟩ := List.mem_map.1 hs
      have hop : x.1 ∈ d.operands id := List.mem_of_getElem? (List.mem_zipIdx_iff_getElem?.1 hx)
      exact (hc.mem_order_iff _).2 (.tail ((hc.mem_order_iff _).1 hid) hop)
    rw [sum_map_eq_sum_filter _ hc.nodup hpairs]
    simp only [sum_contributions hw hc, hlist]
  have hsplit : total (fun id => d.adjoint ρ root w id * d.slope ρ v id) =
      d.slope ρ v root +
        total fun id => if id = root then 0 else d.adjoint ρ root w id * d.slope ρ v id := by
    have hterm : ∀ id, d.adjoint ρ root w id * d.slope ρ v id =
        (if id = root then d.slope ρ v root else 0) +
          if id = root then 0 else d.adjoint ρ root w id * d.slope ρ v id := by
      intro id
      by_cases hid : id = root
      · simp [hid, adjoint_root]
      · simp [hid]
    show ∑ id ∈ _, _ = _
    rw [Finset.sum_congr rfl fun id _ => hterm id, Finset.sum_add_distrib, Finset.sum_ite_eq',
      if_pos (hmem .refl)]
  rw [hconsumers, hoperands] at hsplit
  exact (add_right_cancel hsplit).symm

end Dag

end SharedExpr

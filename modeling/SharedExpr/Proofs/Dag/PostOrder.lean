import SharedExpr.Proofs.Dag.Walk

/-! The order of a walk as a recursion, and the orders of several walks one after the other. -/
namespace SharedExpr

variable {α : Type} [Scalar α] {d : Dag α}

namespace Dag

/-- Adds the nodes under a node to those done before, each after its operands. -/
def postOrder (d : Dag α) (id : NodeId) (done : List NodeId) : List NodeId :=
  if id ∈ done then done
  else
    (d.operands id).foldl (fun done x => if x < id then d.postOrder x done else done) done ++ [id]
termination_by id

def postOrders (d : Dag α) (ids : List NodeId) (done : List NodeId) : List NodeId :=
  ids.foldl (fun done id => d.postOrder id done) done

variable {id : NodeId} {done : List NodeId}

theorem postOrder_of_mem (h : id ∈ done) : d.postOrder id done = done := by
  rw [postOrder, if_pos h]

theorem postOrder_of_not_mem (hw : d.WellFormed) (h : id ∉ done) :
    d.postOrder id done = d.postOrders (d.operands id) done ++ [id] := by
  rw [postOrder, if_neg h, postOrders]
  congr 1
  exact List.foldl_ext _ _ _ fun done x hx => if_pos (hw.operands_lt id x hx)

@[simp] theorem postOrders_nil (done : List NodeId) : d.postOrders [] done = done := rfl

@[simp] theorem postOrders_cons (id : NodeId) (ids done : List NodeId) :
    d.postOrders (id :: ids) done = d.postOrders ids (d.postOrder id done) := rfl

/-- What is added to the nodes done is under the node. -/
theorem postOrder_eq_append (hw : d.WellFormed) (id : NodeId) (done : List NodeId) :
    ∃ new, d.postOrder id done = done ++ new ∧ ∀ x ∈ new, d.Reaches id x := by
  induction id using Nat.strongRecOn generalizing done with
  | _ id ih =>
    by_cases hid : id ∈ done
    · exact ⟨[], by simp [postOrder_of_mem hid], by simp⟩
    · have hfold : ∀ ids, (∀ x ∈ ids, x ∈ d.operands id) → ∀ done,
          ∃ new, d.postOrders ids done = done ++ new ∧ ∀ x ∈ new, d.Reaches id x := by
        intro ids hids
        induction ids with
        | nil => exact fun done => ⟨[], by simp, by simp⟩
        | cons x ids ihs =>
          intro done
          obtain ⟨hx, hids⟩ := List.forall_mem_cons.1 hids
          obtain ⟨new, hnew, hreach⟩ := ih x (hw.operands_lt id x hx) done
          obtain ⟨rest, hrest, hreach'⟩ := ihs hids (done ++ new)
          refine ⟨new ++ rest, by rw [postOrders_cons, hnew, hrest, List.append_assoc], ?_⟩
          exact List.forall_mem_append.2 ⟨fun y hy => .head hx (hreach y hy), hreach'⟩
      obtain ⟨new, hnew, hreach⟩ := hfold _ (fun _ hx => hx) done
      refine ⟨new ++ [id], by rw [postOrder_of_not_mem hw hid, hnew, List.append_assoc], ?_⟩
      exact List.forall_mem_append.2 ⟨hreach, List.forall_mem_singleton.2 .refl⟩

/-- Nodes among which are the operands of each of them. -/
def Closed (d : Dag α) (nodes : List NodeId) : Prop :=
  ∀ id ∈ nodes, ∀ x ∈ d.operands id, x ∈ nodes

theorem Closed.reaches {nodes : List NodeId} (h : d.Closed nodes) {x : NodeId} (hid : id ∈ nodes)
    (hr : d.Reaches id x) : x ∈ nodes := by
  induction hr with
  | refl => exact hid
  | tail _ hx ih => exact h _ ih _ hx

/-- What is done already is left out, and all else keeps its order. -/
theorem postOrder_append_filter (hw : d.WellFormed) {old : List NodeId} (h : d.Closed old)
    (id : NodeId) (done : List NodeId) :
    d.postOrder id (old ++ done.filter (· ∉ old)) =
      old ++ (d.postOrder id done).filter (· ∉ old) := by
  induction id using Nat.strongRecOn generalizing done with
  | _ id ih =>
    by_cases hold : id ∈ old
    · -- All that is under the node is done.
      obtain ⟨new, hnew, hreach⟩ := postOrder_eq_append hw id done
      have hnone : new.filter (· ∉ old) = [] :=
        List.filter_eq_nil_iff.2 fun x hx => by simpa using h.reaches hold (hreach x hx)
      rw [postOrder_of_mem (List.mem_append_left _ hold), hnew, List.filter_append, hnone,
        List.append_nil]
    · by_cases hid : id ∈ done
      · rw [postOrder_of_mem hid, postOrder_of_mem (by simp [hid, hold])]
      · have hfold : ∀ ids, (∀ x ∈ ids, x ∈ d.operands id) → ∀ done,
            d.postOrders ids (old ++ done.filter (· ∉ old)) =
              old ++ (d.postOrders ids done).filter (· ∉ old) := by
          intro ids hids
          induction ids with
          | nil => exact fun done => rfl
          | cons x ids ihs =>
            intro done
            obtain ⟨hx, hids⟩ := List.forall_mem_cons.1 hids
            rw [postOrders_cons, postOrders_cons, ih x (hw.operands_lt id x hx), ihs hids]
        rw [postOrder_of_not_mem hw hid, postOrder_of_not_mem hw (by simp [hid, hold]),
          hfold _ fun _ hx => hx, List.filter_append, ← List.append_assoc]
        simp [hold]

end Dag

namespace Walk

/-- All nodes that were left were entered before. -/
def State.Marked (s : State) : Prop :=
  ∀ x ∈ s.order.toList, s.visited[x]? = some true

theorem State.Marked.passes {s s' : State} {looked : List (NodeId × Use)} {new : List NodeId}
    (h : s.Marked) (hp : Passes d s s' looked new) : s'.Marked := by
  intro x hx
  rw [hp.order, List.mem_append] at hx
  rw [hp.visited]
  split
  · rfl
  · next hn => exact h x (hx.resolve_right hn)

theorem explore_order (hw : d.WellFormed) {id : NodeId} (hid : id < d.count) {s : State}
    (hs : s.Sized d) (hv : s.visited[id]? = some false) (hc : s.Clear id) (hm : s.Marked) :
    (explore d id s).order.toList = d.postOrder id s.order.toList := by
  induction id using Nat.strongRecOn generalizing s with
  | _ id ih =>
    have hfold : ∀ (pending : List NodeId) (position : Nat), (∀ x ∈ pending, x ∈ d.operands id) →
        ∀ s : State, s.Sized d → s.Clear id → s.Marked →
          ((pending.zipIdx position).foldl (look d id) s).order.toList =
            d.postOrders pending s.order.toList := by
      intro pending
      induction pending with
      | nil => exact fun _ _ _ _ _ _ => rfl
      | cons x pending ihp =>
        intro position hp s hs hc hm
        obtain ⟨hx, hp⟩ := List.forall_mem_cons.1 hp
        have hxid := hw.operands_lt id x hx
        have hxc := Nat.lt_trans hxid hid
        obtain ⟨new, hpass, -⟩ := look_passes hw hid hx (explores hw hxc) hs hc position
        rw [List.zipIdx_cons, List.foldl_cons,
          ihp (position + 1) hp _ hpass.sized (hc.passes hpass) (hm.passes hpass),
          Dag.postOrders_cons]
        congr 1
        rw [look]
        by_cases hvx : s.visited[x]? = some false
        · have hrec := Passes.record hs hxc ⟨id, position⟩
          rw [if_pos hvx]
          exact ih x hxid hxc hrec.sized hvx (fun y hy => hc y (Nat.lt_trans hy hxid)) hm
        · have hxo : x ∈ s.order.toList := by
            refine hc x hxid ?_
            have hlt : x < s.visited.size := hs.visited.symm ▸ hxc
            rw [Array.getElem?_eq_getElem hlt] at hvx ⊢
            simpa using hvx
          rw [if_neg hvx, Dag.postOrder_of_mem hxo]
          rfl
    have hnew : id ∉ s.order.toList := by
      intro hmem
      rw [hm id hmem] at hv
      cases hv
    have hcv : (visit d s id).Clear id := by
      intro x hx hvx
      rw [State.visited_visit s hv, if_neg (Nat.ne_of_gt hx)] at hvx
      exact hc x hx hvx
    have hmv : (visit d s id).Marked := by
      intro x hx
      rw [State.visited_visit s hv, hm x hx, ite_self]
    have hbody := hfold _ 0 (fun _ hx => hx) _ (hs.visit id) hcv hmv
    rw [explore_eq hw, State.leave, Array.toList_push, hbody, Dag.postOrder_of_not_mem hw hnew]
    rfl

end Walk

namespace Dag

theorem walk_order (hw : d.WellFormed) {root : NodeId} (hroot : root < d.count) :
    (d.walk root).order.toList = d.postOrder root [] := by
  rw [walk_eq hw]
  exact Walk.explore_order hw hroot (Walk.start_sized d) (Walk.visited_start d hroot)
    (Walk.start_clear d root) (by simp [Walk.State.Marked, Walk.start])

/-- A walk that is taken up after others adds what it would reach by itself, but for what is
done. -/
theorem postOrder_eq_walk (hw : d.WellFormed) {done : List NodeId} (h : d.Closed done)
    {root : NodeId} (hroot : root < d.count) :
    d.postOrder root done = done ++ (d.walk root).order.toList.filter (· ∉ done) := by
  rw [walk_order hw hroot]
  simpa using postOrder_append_filter hw h root []

theorem closed_walk (hw : d.WellFormed) {root : NodeId} (hroot : root < d.count) :
    d.Closed (d.walk root).order.toList := by
  intro id hid x hx
  have hmem := (walk_covers hw hroot).mem_order_iff
  exact (hmem x).2 (((hmem id).1 hid).tail hx)

/-- A node comes to be done, with all its operands. -/
theorem Closed.postOrder (hw : d.WellFormed) {done : List NodeId} (h : d.Closed done)
    {root : NodeId} (hroot : root < d.count) : d.Closed (d.postOrder root done) := by
  intro id hid x hx
  rw [postOrder_eq_walk hw h hroot, List.mem_append] at hid ⊢
  rcases hid with hid | hid
  · exact Or.inl (h id hid x hx)
  · by_cases hold : x ∈ done
    · exact Or.inl hold
    · have hxo := closed_walk hw hroot id (List.mem_filter.1 hid).1 x hx
      exact Or.inr (List.mem_filter.2 ⟨hxo, by simpa using hold⟩)

end Dag

end SharedExpr

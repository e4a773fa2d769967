import SharedExpr.Access.Walk
import SharedExpr.Proofs.Access.Table
import SharedExpr.Proofs.Dag.Walk

/-! The loop of a walk comes to an end, and every access of it finds what it looks for. -/
namespace SharedExpr

variable {α : Type} [Scalar α] {d : Dag α}

/-- A frame of a node of the graph, with the operands from its position on. -/
structure Walk.Frame.Open (frame : Walk.Frame) (d : Dag α) : Prop where
  lt : frame.node < d.count
  le : frame.position ≤ (d.operands frame.node).length
  pending_eq : frame.pending = (d.operands frame.node).drop frame.position

namespace Access

open Walk (Frame State)

def entered (frame : Frame) : Entered :=
  (frame.node, frame.position)

theorem open_enter {x : NodeId} (hx : x < d.count) : Frame.Open ⟨x, 0, d.operands x⟩ d :=
  ⟨hx, Nat.zero_le _, List.drop_zero.symm⟩

theorem open_next (hw : d.WellFormed) {node position x : NodeId} {pending : List NodeId}
    (h : Frame.Open ⟨node, position, x :: pending⟩ d) :
    (d.operands node)[position]? = some x ∧ position ≠ (d.operands node).length ∧ x < d.count ∧
      Frame.Open ⟨node, position + 1, pending⟩ d := by
  obtain ⟨hlt, -, hp⟩ := h
  have hx : (d.operands node)[position]? = some x := by
    rw [← List.head?_drop, ← hp]
    rfl
  obtain ⟨hpos, -⟩ := List.getElem?_eq_some_iff.1 hx
  refine ⟨hx, Nat.ne_of_lt hpos, hw.operand_lt_count (List.mem_of_getElem? hx), hlt, hpos, ?_⟩
  show pending = _
  rw [← List.tail_drop, ← hp]
  rfl

theorem enter_of_fresh {x : NodeId} {s : State} {stack : List Entered} (hx : x < d.count)
    (hv : s.visited[x]? = some false) :
    enter d x s stack = some (Walk.visit d s x, (x, 0) :: stack) := by
  rw [enter, hv, Dag.nameAt_eq hx]
  rfl

theorem enter_of_visited {x : NodeId} {s : State} {stack : List Entered}
    (hx : x < s.visited.size) (hv : s.visited[x]? ≠ some false) :
    enter d x s stack = some (s, stack) := by
  have ht : s.visited[x]? = some true := by
    rw [Array.getElem?_eq_getElem hx] at hv ⊢
    simpa using hv
  rw [enter, ht]
  rfl

/-- The loop works off a stack of frames just as the walk does. -/
theorem search_eq (hw : d.WellFormed) {s : State} {stack : List Frame}
    (hs : s.visited.size = d.count) (hstack : ∀ frame ∈ stack, frame.Open d) :
    search d s (stack.map entered) = some (Walk.run d s stack) := by
  induction s, stack using Walk.run.induct d with
  | case1 s => rw [List.map_nil, search, Walk.run]
  | case2 s node position rest ih =>
    obtain ⟨⟨hlt, hle, hp⟩, hrest⟩ := List.forall_mem_cons.1 hstack
    have hend : position = (d.operands node).length :=
      Nat.le_antisymm hle (List.drop_eq_nil_iff.1 hp.symm)
    rw [List.map_cons, entered, search_cons, Dag.operandsAt_eq hw hlt, Walk.run]
    dsimp only [Option.bind_eq_bind, Option.bind_some]
    rw [if_pos hend]
    exact ih hs hrest
  | case3 s node position x pending rest t rest' hv ih =>
    obtain ⟨hframe, hrest⟩ := List.forall_mem_cons.1 hstack
    obtain ⟨hx, hne, hlt, hnext⟩ := open_next hw hframe
    rw [List.map_cons, entered, search_cons, Dag.operandsAt_eq hw hframe.lt, Walk.run, dif_pos hv]
    simp only [Option.bind_eq_bind, Option.bind_some, if_neg hne, hx]
    refine (congrArg (Option.bind · _) (enter_of_fresh hlt hv)).trans ?_
    refine ih (Array.size_setIfInBounds.trans hs) ?_
    exact List.forall_mem_cons.2 ⟨open_enter hlt, List.forall_mem_cons.2 ⟨hnext, hrest⟩⟩
  | case4 s node position x pending rest t rest' hv ih =>
    obtain ⟨hframe, hrest⟩ := List.forall_mem_cons.1 hstack
    obtain ⟨hx, hne, hlt, hnext⟩ := open_next hw hframe
    rw [List.map_cons, entered, search_cons, Dag.operandsAt_eq hw hframe.lt, Walk.run, dif_neg hv]
    have hsize : x < t.visited.size := hs.symm ▸ hlt
    simp only [Option.bind_eq_bind, Option.bind_some, if_neg hne, hx]
    refine (congrArg (Option.bind · _) (enter_of_visited hsize hv)).trans ?_
    exact ih hs (List.forall_mem_cons.2 ⟨hnext, hrest⟩)

theorem walk_eq (hw : d.WellFormed) {root : NodeId} (hroot : root < d.count) :
    walk d root = some (d.walk root) := by
  have hsearch := search_eq hw (s := Walk.visit d (Walk.start d) root)
    (Array.size_setIfInBounds.trans (Walk.start_sized d).visited)
    (List.forall_mem_singleton.2 (open_enter hroot))
  have hvars : ∀ v ∈ (d.walk root).freeVars, v < d.count :=
    (Dag.walk_covers hw hroot).freeVars_lt hw hroot
  rw [Dag.walk, Walk.byName] at hvars
  rw [walk, enter_of_fresh hroot (Walk.visited_start d hroot)]
  simp only [List.map_cons, List.map_nil, entered] at hsearch
  simp only [Option.bind_eq_bind, Option.bind_some, hsearch]
  rw [mapM_eq fun v hv => Dag.nameAt_eq (hvars v ((List.mergeSort_perm _ _).mem_iff.2 hv))]
  rfl

end Access

end SharedExpr

import Mathlib
import SharedExpr.Proofs.Access.Walk
import SharedExpr.Proofs.Dag.ByteOrder
import SharedExpr.Proofs.Dag.Canonical

/-! The walk on a stack does what the depth-first search by recursion does, step for step. -/
namespace SharedExpr

variable {α : Type} [Scalar α] {d : Dag α}

namespace Walk

inductive Event where
  | enter (id : NodeId)
  /-- Looks at an operand of a node. -/
  | look (operand : NodeId) (use : Use)
  | leave (id : NodeId)
  deriving DecidableEq

def entered (log : List Event) : List NodeId :=
  log.filterMap fun
    | .enter id => some id
    | _ => none

def left (log : List Event) : List NodeId :=
  log.filterMap fun
    | .leave id => some id
    | _ => none

def looked (id : NodeId) (log : List Event) : List Use :=
  log.filterMap fun
    | .look x use => if x = id then some use else none
    | _ => none

/-- Searches the nodes under a node by recursion. It enters the node, looks at its operands from
left to right, searching each that was not entered before, and leaves the node. All operands are
older than their node. -/
def search (d : Dag α) (id : NodeId) (log : List Event) : List Event :=
  (d.operands id).zipIdx.foldl (fun log slot =>
    if slot.1 < id ∧ Event.enter slot.1 ∉ log then
      search d slot.1 (log ++ [Event.look slot.1 ⟨id, slot.2⟩])
    else log ++ [Event.look slot.1 ⟨id, slot.2⟩])
    (log ++ [Event.enter id]) ++ [Event.leave id]
termination_by id
decreasing_by exact And.left ‹_›

def examine (d : Dag α) (id : NodeId) (log : List Event) (slot : NodeId × Nat) : List Event :=
  if Event.enter slot.1 ∉ log then search d slot.1 (log ++ [Event.look slot.1 ⟨id, slot.2⟩])
  else log ++ [Event.look slot.1 ⟨id, slot.2⟩]

theorem search_eq (hw : d.WellFormed) (id : NodeId) (log : List Event) :
    search d id log = (d.operands id).zipIdx.foldl (examine d id) (log ++ [Event.enter id]) ++
      [Event.leave id] := by
  rw [search]
  congr 1
  refine List.foldl_ext _ _ _ fun log slot hm => ?_
  have hlt : slot.1 < id :=
    hw.operands_lt id slot.1 (List.mem_of_getElem? (List.mem_zipIdx_iff_getElem?.1 hm))
  simp only [examine, hlt, true_and]

/-- The state of a walk after the events of a search. -/
structure State.Logs (d : Dag α) (s : State) (log : List Event) : Prop where
  sized : s.Sized d
  visited : ∀ x < d.count, s.visited[x]? = some (decide (Event.enter x ∈ log))
  order : s.order.toList = left log
  vars : s.vars.toList = (entered log).filter fun x => (d.name? x).isSome
  uses : ∀ id, s.usesOf id = looked id log

namespace State.Logs

variable {s : State} {log : List Event} {id : NodeId}

theorem enter (hs : s.Logs d log) :
    (visit d s id).Logs d (log ++ [Event.enter id]) where
  sized := hs.sized.visit id
  visited x hx := by
    rw [visit, Array.getElem?_setIfInBounds, hs.sized.visited, hs.visited x hx]
    by_cases he : id = x
    · simp [he, hx]
    · simp [he, Ne.symm he]
  order := by simpa [left, visit] using hs.order
  vars := by
    have hv := hs.vars
    rw [entered] at hv
    by_cases hn : (d.name? id).isSome <;> simp [entered, visit, hn, hv]
  uses x := by simpa [looked, visit, State.usesOf] using hs.uses x

theorem look (hs : s.Logs d log) {x : NodeId} (hx : x < d.count) (use : Use) :
    (s.record x use).Logs d (log ++ [Event.look x use]) where
  sized := ⟨hs.sized.visited, Array.size_modify.trans hs.sized.uses⟩
  visited y hy := by simpa [State.record] using hs.visited y hy
  order := by simpa [left, State.record] using hs.order
  vars := by simpa [entered, State.record] using hs.vars
  uses y := by
    rw [State.usesOf_record s x use (hs.sized.uses.symm ▸ hx), hs.uses y]
    by_cases he : x = y <;> simp [looked, he]

theorem leave (hs : s.Logs d log) : (s.leave id).Logs d (log ++ [Event.leave id]) where
  sized := ⟨hs.sized.visited, hs.sized.uses⟩
  visited x hx := by simpa [State.leave] using hs.visited x hx
  order := by simp [left, State.leave, hs.order]
  vars := by simpa [entered, State.leave] using hs.vars
  uses x := by simpa [looked, State.leave, State.usesOf] using hs.uses x

end State.Logs

theorem start_logs (d : Dag α) : (start d).Logs d [] where
  sized := start_sized d
  visited x hx := by simp [visited_start d hx]
  order := rfl
  vars := rfl
  uses id := usesOf_start d id

theorem explore_logs (hw : d.WellFormed) {id : NodeId} (hid : id < d.count) {s : State}
    {log : List Event} (hs : s.Logs d log) : (explore d id s).Logs d (search d id log) := by
  induction id using Nat.strongRecOn generalizing s log with
  | _ id ih =>
    have hslots : ∀ slots : List (NodeId × Nat), (∀ slot ∈ slots, slot.1 ∈ d.operands id) →
        ∀ {s : State} {log : List Event}, s.Logs d log →
          (slots.foldl (look d id) s).Logs d (slots.foldl (examine d id) log) := by
      intro slots hslots
      induction slots with
      | nil => exact fun hs => hs
      | cons slot slots ihs =>
        intro s log hs
        obtain ⟨hslot, hslots⟩ := List.forall_mem_cons.1 hslots
        have hlt := hw.operands_lt id slot.1 hslot
        have hx := Nat.lt_trans hlt hid
        have hlook := hs.look hx ⟨id, slot.2⟩
        have hv : s.visited[slot.1]? = some false ↔ Event.enter slot.1 ∉ log := by
          rw [hs.visited slot.1 hx]
          simp
        refine ihs hslots ?_
        rw [Walk.look, examine]
        by_cases hnew : Event.enter slot.1 ∉ log
        · rw [if_pos (hv.2 hnew), if_pos hnew]
          exact ih slot.1 hlt hx hlook
        · rw [if_neg (mt hv.1 hnew), if_neg hnew]
          exact hlook
    rw [explore_eq hw, search_eq hw]
    exact (hslots _ (fun slot hm => List.mem_of_getElem? (List.mem_zipIdx_iff_getElem?.1 hm))
      hs.enter).leave

/-- Variables of one name stay in the order in which they were met. -/
theorem filter_byName (d : Dag α) (vars : List NodeId) (name : String) :
    (byName d vars).filter (d.name? · = some name) = vars.filter (d.name? · = some name) := by
  have hsub : (vars.filter (d.name? · = some name)).Sublist (byName d vars) := by
    refine List.sublist_mergeSort ?_ ?_ ?_ List.filter_sublist
    · intro a b c hab hbc
      simp only [decide_eq_true_eq] at *
      exact le_trans hab hbc
    · intro a b
      simpa using le_total _ _
    · refine List.pairwise_of_forall_mem_list fun x hx y hy => ?_
      have hx : d.name? x = some name := by simpa using (List.mem_filter.1 hx).2
      have hy : d.name? y = some name := by simpa using (List.mem_filter.1 hy).2
      simp [hx, hy]
  have hfilter := hsub.filter (d.name? · = some name)
  rw [List.filter_filter] at hfilter
  simp only [Bool.and_self] at hfilter
  exact (hfilter.eq_of_length
    (((List.mergeSort_perm vars _).filter _).length_eq).symm).symm

end Walk

namespace Dag

open Walk (search entered left looked)

/-- The walk of a root is the depth-first search by recursion. -/
theorem walk_logs (hw : d.WellFormed) {root : NodeId} (hroot : root < d.count) :
    (d.walk root).order.toList = left (search d root []) ∧
    (d.walk root).freeVars =
      Walk.byName d ((entered (search d root [])).filter fun x => (d.name? x).isSome) ∧
    ∀ id, ((d.walk root).usesOf id).toList = looked id (search d root []) := by
  have hlogs := Walk.explore_logs hw hroot (Walk.start_logs d)
  rw [walk_eq hw]
  exact ⟨hlogs.order, congrArg (Walk.byName d) hlogs.vars, hlogs.uses⟩

theorem nodup_uses (hw : d.WellFormed) (id : NodeId) : (d.uses id).Nodup :=
  (hw.uses_sorted id).imp fun hab he => by
    subst he
    exact absurd hab (by simp [Use.Newer])

/-- The walk of a node of a table. Its loop comes to an end, and it is the depth-first search by
recursion: it leaves the nodes in the same order, which are the nodes under the root, each once and
after its operands, the root last. The variables among them come by the bytes of their names, those
of one name in the order in which they were entered. The uses of a node are those looked at, in
order: they are its uses in the table by nodes under the root, each once, and the root has none. -/
theorem Interned.walk_depthFirst (h : d.Interned) {root : NodeId} (hroot : root < d.count) :
    Access.walk d root = some (d.walk root) ∧
    ((d.walk root).order.toList = left (search d root []) ∧
      (d.walk root).order.toList.Nodup ∧
      (∀ x, x ∈ (d.walk root).order.toList ↔ d.Reaches root x) ∧
      (∀ done id after, (d.walk root).order.toList = done ++ id :: after →
        ∀ x ∈ d.operands id, x ∈ done) ∧
      ∃ before, (d.walk root).order.toList = before ++ [root]) ∧
    ((d.walk root).freeVars.Perm
        ((d.walk root).order.toList.filter fun x => (d.name? x).isSome) ∧
      ((d.walk root).freeVars.Pairwise fun x y => ∀ a b, d.name? x = some a → d.name? y = some b →
        bytes a ≤ bytes b) ∧
      ∀ name : String, (d.walk root).freeVars.filter (d.name? · = some name) =
        (entered (search d root [])).filter (d.name? · = some name)) ∧
    (∀ id, ((d.walk root).usesOf id).toList = looked id (search d root []) ∧
      ((d.walk root).usesOf id).toList.Nodup ∧
      (∀ use : Use, use ∈ ((d.walk root).usesOf id).toList ↔
        d.Reaches root use.consumer ∧ (d.operands use.consumer)[use.position]? = some id) ∧
      ((d.walk root).usesOf id).toList.Perm
        ((d.uses id).filter (·.consumer ∈ (d.walk root).order.toList))) ∧
    (d.walk root).usesOf root = #[] := by
  have hw := h.wellFormed
  have hcov := walk_covers hw hroot
  obtain ⟨horder, hvars, huses⟩ := walk_logs hw hroot
  refine ⟨Access.walk_eq hw hroot,
    ⟨horder, hcov.nodup, hcov.mem_order_iff, hcov.settled, hcov.last⟩,
    ⟨hcov.freeVars_perm, ?_, fun name => ?_⟩,
    fun id => ⟨huses id, hcov.nodup_usesOf id, fun use => hcov.mem_usesOf_iff, ?_⟩, ?_⟩
  · refine hcov.freeVars_sorted.imp fun {x y} hxy a b ha hb => ?_
    rw [ha, hb] at hxy
    rcases lt_or_eq_of_le hxy with hlt | heq
    · exact fun hgt => List.lt_asymm (bytes_lt hlt) hgt
    · obtain rfl : a = b := heq
      exact List.lt_irrefl _
  · rw [hvars, Walk.filter_byName, List.filter_filter]
    refine List.filter_congr fun x _ => ?_
    by_cases hx : d.name? x = some name <;> simp [hx]
  · refine (List.perm_ext_iff_of_nodup (hcov.nodup_usesOf id) ((nodup_uses hw id).filter _)).2
      fun use => ?_
    rw [hcov.mem_usesOf_iff, List.mem_filter, hw.mem_uses_iff, decide_eq_true_iff,
      hcov.mem_order_iff, and_comm]
  · -- A consumer of the root would be younger than the root and under it.
    refine Array.toList_eq_nil_iff.1 (List.eq_nil_iff_forall_not_mem.2 fun use hm => ?_)
    obtain ⟨hreach, hop⟩ := hcov.mem_usesOf_iff.1 hm
    have hlt := hw.operands_lt use.consumer root (List.mem_of_getElem? hop)
    exact absurd (hreach.le hw) (Nat.not_le_of_lt hlt)

/-- The walk of a square enters the variable at its first use only. The uses of the variable are
met in the order opposite to that of the table. -/
theorem squareTable_walk_depthFirst :
    search squareTable 1 [] =
      [.enter 1, .look 0 ⟨1, 0⟩, .enter 0, .leave 0, .look 0 ⟨1, 1⟩, .leave 1] ∧
    Access.walk squareTable 1 = some (squareTable.walk 1) ∧
    (squareTable.walk 1).order.toList = [0, 1] ∧
    ((squareTable.walk 1).usesOf 0).toList = [⟨1, 0⟩, ⟨1, 1⟩] ∧
    (squareTable.walk 1).usesOf 1 = #[] := by
  have hroot : (1 : NodeId) < squareTable.count := by cbv
  have hlog : search squareTable 1 [] =
      [.enter 1, .look 0 ⟨1, 0⟩, .enter 0, .leave 0, .look 0 ⟨1, 1⟩, .leave 1] := by cbv
  obtain ⟨hwalk, ⟨horder, -⟩, -, huses, hnone⟩ := interned_squareTable.walk_depthFirst hroot
  refine ⟨hlog, hwalk, horder.trans ?_, (huses 0).1.trans ?_, hnone⟩
  · rw [hlog]
    rfl
  · rw [hlog]
    rfl

end Dag

end SharedExpr

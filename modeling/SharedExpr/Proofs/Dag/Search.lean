import Mathlib.Data.List.Basic
import SharedExpr.Dag.Walk
import SharedExpr.Proofs.Dag.Denotation

/-! The depth-first walk as a recursion, and what it adds to a walk under way. -/
namespace SharedExpr.Walk

variable {α : Type} [Scalar α] {d : Dag α}

/-- Enters a node, looks at its operands in order, of which those are explored that were not
entered before, and leaves the node. -/
def explore (d : Dag α) (id : NodeId) (s : State) : State :=
  ((d.operands id).zipIdx.foldl (fun s slot =>
    if slot.1 < id ∧ s.visited[slot.1]? = some false then
      explore d slot.1 (s.record slot.1 ⟨id, slot.2⟩)
    else s.record slot.1 ⟨id, slot.2⟩)
    (visit d s id)).leave id
termination_by id
decreasing_by exact And.left ‹_›

def look (d : Dag α) (id : NodeId) (s : State) (slot : NodeId × Nat) : State :=
  if s.visited[slot.1]? = some false then explore d slot.1 (s.record slot.1 ⟨id, slot.2⟩)
  else s.record slot.1 ⟨id, slot.2⟩

theorem explore_eq (hw : d.WellFormed) (id : NodeId) (s : State) :
    explore d id s = ((d.operands id).zipIdx.foldl (look d id) (visit d s id)).leave id := by
  rw [explore]
  congr 1
  refine List.foldl_ext _ _ _ fun s slot hm => ?_
  have hlt : slot.1 < id :=
    hw.operands_lt id slot.1 (List.mem_of_getElem? (List.mem_zipIdx_iff_getElem?.1 hm))
  simp only [look, hlt, true_and]

/-- Working off a stack is to look at the operands of its first frame that are left, to leave the
node and to work off the others. -/
theorem run_frame (hw : d.WellFormed) (id : NodeId) (pending : List NodeId) (position : Nat)
    (s : State) (rest : List Frame) (hp : ∀ x ∈ pending, x < id) :
    run d s (⟨id, position, pending⟩ :: rest) =
      run d (((pending.zipIdx position).foldl (look d id) s).leave id) rest := by
  induction id using Nat.strongRecOn generalizing pending position s rest with
  | _ id ih =>
    induction pending generalizing position s with
    | nil => rw [run, List.zipIdx_nil, List.foldl_nil]
    | cons x pending ihp =>
      have hx := hp x List.mem_cons_self
      have hrest := fun y hy => hp y (List.mem_cons_of_mem x hy)
      rw [run, List.zipIdx_cons, List.foldl_cons, look]
      dsimp only
      by_cases hv : s.visited[x]? = some false
      · have hv' : (s.record x ⟨id, position⟩).visited[x]? = some false := hv
        rw [dif_pos hv', if_pos hv, ih x hx _ _ _ _ (hw.operands_lt x), ihp _ _ hrest,
          ← explore_eq hw]
      · have hv' : (s.record x ⟨id, position⟩).visited[x]? ≠ some false := hv
        rw [dif_neg hv', if_neg hv, ihp _ _ hrest]

theorem run_root (hw : d.WellFormed) (root : NodeId) (s : State) :
    run d (visit d s root) [⟨root, 0, d.operands root⟩] = explore d root s := by
  rw [run_frame hw root _ 0 _ [] (hw.operands_lt root), run, explore_eq hw]

/-- The operand slots of a node, each with the use that it is. -/
def slots (d : Dag α) (consumer : NodeId) : List (NodeId × Use) :=
  (d.operands consumer).zipIdx.map fun slot => (slot.1, ⟨consumer, slot.2⟩)

def usesAmong (id : NodeId) (slots : List (NodeId × Use)) : List Use :=
  (slots.filter (·.1 = id)).map Prod.snd

def State.usesOf (s : State) (id : NodeId) : List Use :=
  (s.uses.getD id #[]).toList

structure State.Sized (d : Dag α) (s : State) : Prop where
  visited : s.visited.size = d.count
  uses : s.uses.size = d.count

/-- The walk goes from one state to another: it leaves some new nodes in order, has looked at their
operands and, beyond those, at some slots of nodes that it has not left. -/
structure Passes (d : Dag α) (s s' : State) (looked : List (NodeId × Use)) (new : List NodeId) :
    Prop where
  sized : State.Sized d s'
  order : s'.order.toList = s.order.toList ++ new
  fresh : ∀ x ∈ new, s.visited[x]? = some false
  nodup : new.Nodup
  visited : ∀ x, s'.visited[x]? = if x ∈ new then some true else s.visited[x]?
  vars : s'.vars.toList.Perm (s.vars.toList ++ new.filter fun x => (d.name? x).isSome)
  uses : ∀ id, (s'.usesOf id).Perm (s.usesOf id ++ usesAmong id (looked ++ new.flatMap (slots d)))
  settled : ∀ done id after, new = done ++ id :: after →
    ∀ x ∈ d.operands id, x ∈ s.order.toList ++ done

theorem usesAmong_append (id : NodeId) (a b : List (NodeId × Use)) :
    usesAmong id (a ++ b) = usesAmong id a ++ usesAmong id b := by
  simp [usesAmong]

namespace Passes

theorem refl {s : State} (hs : s.Sized d) : Passes d s s [] [] where
  sized := hs
  order := (List.append_nil _).symm
  fresh := by simp
  nodup := .nil
  visited x := by simp
  vars := by simp
  uses id := by simp [usesAmong]
  settled done id after h := by simp at h

theorem trans {s s' s'' : State} {looked looked' : List (NodeId × Use)} {new new' : List NodeId}
    (h : Passes d s s' looked new) (h' : Passes d s' s'' looked' new') :
    Passes d s s'' (looked ++ looked') (new ++ new') := by
  have hfresh' : ∀ x ∈ new', x ∉ new ∧ s.visited[x]? = some false := by
    intro x hx
    have hv := h'.fresh x hx
    rw [h.visited] at hv
    split at hv
    · cases hv
    · next hn => exact ⟨hn, hv⟩
  refine ⟨h'.sized, ?_, ?_, ?_, ?_, ?_, ?_, ?_⟩
  · rw [h'.order, h.order, List.append_assoc]
  · intro x hx
    rcases List.mem_append.1 hx with hx | hx
    · exact h.fresh x hx
    · exact (hfresh' x hx).2
  · rw [List.nodup_append]
    refine ⟨h.nodup, h'.nodup, fun x hx y hy hxy => ?_⟩
    exact (hfresh' y hy).1 (hxy ▸ hx)
  · intro x
    rw [h'.visited, h.visited]
    by_cases hx : x ∈ new <;> by_cases hx' : x ∈ new' <;> simp [hx, hx']
  · rw [List.filter_append, ← List.append_assoc]
    exact h'.vars.trans (h.vars.append_right _)
  · intro id
    refine (h'.uses id).trans (((h.uses id).append_right _).trans ?_)
    rw [List.append_assoc, ← usesAmong_append]
    refine .append_left _ ?_
    have hp : (looked ++ new.flatMap (slots d) ++ (looked' ++ new'.flatMap (slots d))).Perm
        (looked ++ looked' ++ (new ++ new').flatMap (slots d)) := by
      rw [List.flatMap_append, List.append_assoc, List.append_assoc]
      refine .append_left _ ?_
      rw [← List.append_assoc, ← List.append_assoc]
      exact .append_right _ List.perm_append_comm
    exact (hp.filter _).map _
  · intro done id after heq x hx
    rcases List.append_eq_append_iff.1 heq with ⟨mid, hdone, hnew'⟩ | ⟨mid, hnew, hmid⟩
    · have hm := h'.settled mid id after hnew' x hx
      rw [h.order] at hm
      simpa [hdone] using hm
    · cases mid with
      | nil =>
        have hm := h'.settled [] id after hmid.symm x hx
        rw [h.order] at hm
        simpa [hnew] using hm
      | cons first mid =>
        obtain ⟨rfl, hmid⟩ := List.cons.inj hmid
        exact h.settled done id mid hnew x hx

theorem order_mono {s s' : State} {looked : List (NodeId × Use)} {new : List NodeId}
    (h : Passes d s s' looked new) {x : NodeId} (hx : x ∈ s.order.toList) : x ∈ s'.order.toList :=
  h.order ▸ List.mem_append_left new hx

end Passes

namespace State

theorem usesOf_record (s : State) (x : NodeId) (use : Use) (hx : x < s.uses.size) (id : NodeId) :
    (s.record x use).usesOf id = if x = id then s.usesOf id ++ [use] else s.usesOf id := by
  rw [usesOf, usesOf, record, Array.getD_eq_getD_getElem?, Array.getD_eq_getD_getElem?,
    Array.getElem?_modify]
  by_cases hid : x = id
  · subst hid
    simp [hx]
  · simp [hid]

theorem Sized.visit {s : State} (hs : s.Sized d) (id : NodeId) : (visit d s id).Sized d :=
  ⟨Array.size_setIfInBounds.trans hs.visited, hs.uses⟩

theorem visited_visit (s : State) {id : NodeId} (h : s.visited[id]? = some false) (x : NodeId) :
    (Walk.visit d s id).visited[x]? = if id = x then some true else s.visited[x]? := by
  obtain ⟨hlt, -⟩ := Array.getElem?_eq_some_iff.1 h
  rw [Walk.visit, Array.getElem?_setIfInBounds, if_pos hlt]

/-- All older nodes that were entered are left. -/
def Clear (s : State) (id : NodeId) : Prop :=
  ∀ x < id, s.visited[x]? = some true → x ∈ s.order.toList

theorem Clear.passes {s s' : State} {looked : List (NodeId × Use)} {new : List NodeId} {id : NodeId}
    (h : s.Clear id) (hp : Passes d s s' looked new) : s'.Clear id := by
  intro x hx hv
  rw [hp.visited] at hv
  rw [hp.order, List.mem_append]
  split at hv
  · next hn => exact Or.inr hn
  · exact Or.inl (h x hx hv)

end State

namespace Passes

theorem record {s : State} (hs : s.Sized d) {x : NodeId} (hx : x < d.count) (use : Use) :
    Passes d s (s.record x use) [(x, use)] [] where
  sized := ⟨hs.visited, Array.size_modify.trans hs.uses⟩
  order := (List.append_nil _).symm
  fresh := by simp
  nodup := .nil
  visited y := by simp [State.record]
  vars := by simp [State.record]
  uses id := by
    rw [State.usesOf_record s x use (hs.uses.symm ▸ hx)]
    by_cases hid : x = id <;> simp [usesAmong, hid]
  settled done id after h := by simp at h

/-- A node is entered, its operands are looked at and come to be left, and the node is left. -/
theorem leave {s s' : State} {id : NodeId} {new : List NodeId} (hv : s.visited[id]? = some false)
    (h : Passes d (visit d s id) s' (slots d id) new)
    (hset : ∀ x ∈ d.operands id, x ∈ s'.order.toList) :
    Passes d s (s'.leave id) [] (new ++ [id]) := by
  have hid : id ∉ new := by
    intro hm
    have hf := h.fresh id hm
    simp [State.visited_visit s hv] at hf
  have ho : s'.order.toList = s.order.toList ++ new := h.order
  refine ⟨⟨h.sized.visited, h.sized.uses⟩, ?_, ?_, ?_, ?_, ?_, ?_, ?_⟩
  · rw [State.leave, Array.toList_push, ho, List.append_assoc]
  · intro x hx
    rcases List.mem_append.1 hx with hx | hx
    · have hf := h.fresh x hx
      rw [State.visited_visit s hv] at hf
      split at hf
      · cases hf
      · exact hf
    · exact List.mem_singleton.1 hx ▸ hv
  · rw [List.nodup_append]
    refine ⟨h.nodup, by simp, fun x hx y hy hxy => hid ?_⟩
    exact List.mem_singleton.1 hy ▸ hxy ▸ hx
  · intro x
    show s'.visited[x]? = _
    rw [h.visited, State.visited_visit s hv]
    by_cases hx : x ∈ new
    · simp [hx]
    · by_cases he : id = x
      · simp [he]
      · simp [hx, he, Ne.symm he]
  · refine h.vars.trans ?_
    rw [List.filter_append, visit]
    by_cases hn : (d.name? id).isSome
    · simp only [hn, if_true, Array.toList_push, List.append_assoc, List.filter_cons_of_pos,
        List.filter_nil]
      exact .append_left _ List.perm_append_comm
    · simp [hn]
  · intro x
    refine (h.uses x).trans (.append_left _ ?_)
    have hp : (slots d id ++ new.flatMap (slots d)).Perm
        ([] ++ (new ++ [id]).flatMap (slots d)) := by
      simpa using List.perm_append_comm
    exact (hp.filter _).map _
  · intro done c after heq x hx
    rcases List.eq_nil_or_concat after with rfl | ⟨mid, last, rfl⟩
    · obtain ⟨rfl, hc⟩ := List.append_inj' heq rfl
      obtain rfl := (List.cons.inj hc).1
      exact ho ▸ hset x hx
    · rw [List.concat_eq_append, ← List.cons_append, ← List.append_assoc] at heq
      obtain ⟨rfl, -⟩ := List.append_inj' heq rfl
      exact h.settled done c mid rfl x hx

end Passes

/-- Exploring a node leaves the nodes under it that were not entered before, itself the last. -/
def Explores (d : Dag α) (id : NodeId) : Prop :=
  ∀ s : State, s.Sized d → s.visited[id]? = some false → s.Clear id →
    ∃ new, Passes d s (explore d id s) [] (new ++ [id]) ∧ ∀ x ∈ new, d.Reaches id x

/-- Looking at an operand explores it unless it was entered before; then it was left. -/
theorem look_passes (hw : d.WellFormed) {id x : NodeId} (hid : id < d.count)
    (hx : x ∈ d.operands id) (he : Explores d x) {s : State} (hs : s.Sized d) (hc : s.Clear id)
    (position : Nat) :
    ∃ new, Passes d s (look d id s (x, position)) [(x, ⟨id, position⟩)] new ∧
      (∀ y ∈ new, d.Reaches x y) ∧ x ∈ (look d id s (x, position)).order.toList := by
  have hxid : x < id := hw.operands_lt id x hx
  have hxc := Nat.lt_trans hxid hid
  have hrec := Passes.record hs hxc ⟨id, position⟩
  rw [look]
  by_cases hv : s.visited[x]? = some false
  · have hcx : (s.record x ⟨id, position⟩).Clear x := fun y hy => hc y (Nat.lt_trans hy hxid)
    obtain ⟨new, hn, hreach⟩ := he _ hrec.sized hv hcx
    rw [if_pos hv]
    refine ⟨new ++ [x], hrec.trans hn, fun y hy => ?_, by simp [hn.order]⟩
    rcases List.mem_append.1 hy with hy | hy
    · exact hreach y hy
    · exact List.mem_singleton.1 hy ▸ .refl
  · rw [if_neg hv]
    refine ⟨[], hrec, by simp, hc x hxid ?_⟩
    have hlt : x < s.visited.size := hs.visited.symm ▸ hxc
    rw [Array.getElem?_eq_getElem hlt] at hv ⊢
    simpa using hv

theorem foldl_look_passes (hw : d.WellFormed) {id : NodeId} (hid : id < d.count)
    (he : ∀ x ∈ d.operands id, Explores d x) {pending : List NodeId}
    (hp : ∀ x ∈ pending, x ∈ d.operands id) (position : Nat) {s : State} (hs : s.Sized d)
    (hc : s.Clear id) :
    ∃ new, Passes d s ((pending.zipIdx position).foldl (look d id) s)
        ((pending.zipIdx position).map fun slot => (slot.1, ⟨id, slot.2⟩)) new ∧
      (∀ x ∈ new, d.Reaches id x) ∧
      ∀ x ∈ pending, x ∈ ((pending.zipIdx position).foldl (look d id) s).order.toList := by
  induction pending generalizing position s with
  | nil => exact ⟨[], .refl hs, by simp, by simp⟩
  | cons x pending ih =>
    have hx := hp x List.mem_cons_self
    obtain ⟨new₁, h₁, hreach₁, hx₁⟩ := look_passes hw hid hx (he x hx) hs hc position
    obtain ⟨new₂, h₂, hreach₂, hp₂⟩ := ih (fun y hy => hp y (List.mem_cons_of_mem x hy))
      (position + 1) h₁.sized (hc.passes h₁)
    refine ⟨new₁ ++ new₂, h₁.trans h₂, fun y hy => ?_, fun y hy => ?_⟩
    · rcases List.mem_append.1 hy with hy | hy
      · exact .head hx (hreach₁ y hy)
      · exact hreach₂ y hy
    · rcases List.mem_cons.1 hy with rfl | hy
      · exact h₂.order_mono hx₁
      · exact hp₂ y hy

theorem explores (hw : d.WellFormed) {id : NodeId} (hid : id < d.count) : Explores d id := by
  induction id using Nat.strongRecOn with
  | _ id ih =>
    intro s hs hv hc
    have he : ∀ x ∈ d.operands id, Explores d x := fun x hx =>
      ih x (hw.operands_lt id x hx) (hw.operand_lt_count hx)
    have hcv : (visit d s id).Clear id := by
      intro x hx hvx
      rw [State.visited_visit s hv, if_neg (Nat.ne_of_gt hx)] at hvx
      exact hc x hx hvx
    obtain ⟨new, hn, hreach, hall⟩ :=
      foldl_look_passes hw hid he (fun _ hx => hx) 0 (hs.visit id) hcv
    rw [explore_eq hw]
    exact ⟨new, hn.leave hv hall, hreach⟩

end SharedExpr.Walk

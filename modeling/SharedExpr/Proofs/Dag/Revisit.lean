import SharedExpr.Proofs.Dag.Walk

/-! A walk finds the same in every graph that extends one: it looks only at what is under its
root. -/
namespace SharedExpr

variable {α : Type} [Scalar α] {d e : Dag α}

namespace Walk

/-- A state of a walk of a graph, and the same state of the walk of a graph that extends it. -/
structure State.Matches (d e : Dag α) (s s' : State) : Prop where
  sized : s.Sized d
  sized' : s'.Sized e
  visited : ∀ x < d.count, s'.visited[x]? = s.visited[x]?
  order : s'.order = s.order
  uses : ∀ id, s'.uses.getD id #[] = s.uses.getD id #[]

namespace State.Matches

variable {s s' : State}

theorem record (he : d.Extends e) (h : Matches d e s s') {x : NodeId} (hx : x < d.count)
    (use : Use) : Matches d e (s.record x use) (s'.record x use) where
  sized := ⟨h.sized.visited, Array.size_modify.trans h.sized.uses⟩
  sized' := ⟨h.sized'.visited, Array.size_modify.trans h.sized'.uses⟩
  visited := h.visited
  order := h.order
  uses id := by
    have hs : x < s.uses.size := h.sized.uses.symm ▸ hx
    have hs' : x < s'.uses.size := h.sized'.uses.symm ▸ he.lt_count hx
    have hu := h.uses id
    simp only [State.record, Array.getD_eq_getD_getElem?, Array.getElem?_modify] at hu ⊢
    by_cases hid : x = id
    · subst hid
      simp only [Array.getElem?_eq_getElem hs, Array.getElem?_eq_getElem hs', Option.getD_some]
        at hu
      simp [hs, hs', hu]
    · simpa [hid] using hu

theorem visit (he : d.Extends e) (h : Matches d e s s') {id : NodeId} (hid : id < d.count) :
    Matches d e (Walk.visit d s id) (Walk.visit e s' id) where
  sized := h.sized.visit id
  sized' := h.sized'.visit id
  visited x hx := by
    have hs : id < s.visited.size := h.sized.visited.symm ▸ hid
    have hs' : id < s'.visited.size := h.sized'.visited.symm ▸ he.lt_count hid
    rw [Walk.visit, Walk.visit, Array.getElem?_setIfInBounds, Array.getElem?_setIfInBounds,
      if_pos hs, if_pos hs', h.visited x hx]
  order := h.order
  uses := h.uses

theorem leave (h : Matches d e s s') (id : NodeId) : Matches d e (s.leave id) (s'.leave id) where
  sized := ⟨h.sized.visited, h.sized.uses⟩
  sized' := ⟨h.sized'.visited, h.sized'.uses⟩
  visited := h.visited
  order := congrArg (·.push id) h.order
  uses := h.uses

end State.Matches

theorem explore_matches (hw : d.WellFormed) (hw' : e.WellFormed) (he : d.Extends e) {id : NodeId}
    (hid : id < d.count) {s s' : State} (h : State.Matches d e s s') :
    State.Matches d e (explore d id s) (explore e id s') := by
  induction id using Nat.strongRecOn generalizing s s' with
  | _ id ih =>
    have hfold : ∀ (slots : List (NodeId × Nat)), (∀ slot ∈ slots, slot.1 ∈ d.operands id) →
        ∀ {s s' : State}, State.Matches d e s s' →
          State.Matches d e (slots.foldl (look d id) s) (slots.foldl (look e id) s') := by
      intro slots
      induction slots with
      | nil => exact fun _ _ _ h => h
      | cons slot slots ihs =>
        intro hslots s s' h
        have hx := hslots slot List.mem_cons_self
        have hlt := hw.operand_lt_count hx
        refine ihs (fun slot hm => hslots slot (List.mem_cons_of_mem _ hm)) ?_
        have hrec := h.record he hlt ⟨id, slot.2⟩
        rw [look, look, h.visited slot.1 hlt]
        split
        · exact ih slot.1 (hw.operands_lt id slot.1 hx) hlt hrec
        · exact hrec
    rw [explore_eq hw, explore_eq hw', he.operands hid]
    refine (hfold _ (fun slot hm => ?_) (h.visit he hid)).leave id
    exact List.mem_of_getElem? (List.mem_zipIdx_iff_getElem?.1 hm)

theorem start_matches (he : d.Extends e) : State.Matches d e (start d) (start e) where
  sized := start_sized d
  sized' := start_sized e
  visited x hx := by rw [visited_start d hx, visited_start e (he.lt_count hx)]
  order := rfl
  uses id := by
    have hnone : ∀ n, (Array.replicate n (#[] : Array Use)).getD id #[] = #[] := by
      intro n
      rw [Array.getD_eq_getD_getElem?, Array.getElem?_replicate]
      split <;> rfl
    simp only [start, hnone]

end Walk

namespace Dag

/-- A walk meets the same nodes in the same order, and the same uses of each of them. -/
theorem walk_extends (hw : d.WellFormed) (hw' : e.WellFormed) (he : d.Extends e) {root : NodeId}
    (hroot : root < d.count) :
    (e.walk root).order = (d.walk root).order ∧
      ∀ id, (e.walk root).usesOf id = (d.walk root).usesOf id := by
  have hm := Walk.explore_matches hw hw' he hroot (Walk.start_matches he)
  rw [walk_eq hw, walk_eq hw']
  exact ⟨hm.order, hm.uses⟩

theorem freeVars_extends (h : d.Lawful) (h' : e.Lawful) (he : d.Extends e) {root : NodeId}
    (hroot : root < d.count) : e.freeVars root = d.freeVars root :=
  freeVars_eq h h' he hroot (he.lt_count hroot) fun _ _ => he.reaches_iff h.wellFormed hroot

end Dag

end SharedExpr

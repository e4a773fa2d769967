import Mathlib.Data.List.Nodup
import Mathlib.Data.String.Basic
import SharedExpr.Proofs.Dag.Search

/-! What a walk learns about the nodes under its root. -/
namespace SharedExpr

variable {α : Type} [Scalar α] {d : Dag α}

namespace Walk

/-- What a walk says about the expression under a root. -/
structure Covers (d : Dag α) (root : NodeId) (w : Walk) : Prop where
  /-- The root comes last. -/
  last : ∃ before, w.order.toList = before ++ [root]
  nodup : w.order.toList.Nodup
  mem_order_iff : ∀ x, x ∈ w.order.toList ↔ d.Reaches root x
  settled : ∀ done id after, w.order.toList = done ++ id :: after → ∀ x ∈ d.operands id, x ∈ done
  freeVars_perm : w.freeVars.Perm (w.order.toList.filter fun x => (d.name? x).isSome)
  freeVars_sorted : w.freeVars.Pairwise fun x y => (d.name? x).getD "" ≤ (d.name? y).getD ""
  uses_perm : ∀ id, (w.usesOf id).toList.Perm (usesAmong id (w.order.toList.flatMap (slots d)))
  uses_size : w.uses.size = d.count

theorem start_sized (d : Dag α) : (start d).Sized d :=
  ⟨Array.size_replicate, Array.size_replicate⟩

theorem visited_start (d : Dag α) {x : NodeId} (hx : x < d.count) :
    (start d).visited[x]? = some false := by
  simp [start, hx]

theorem usesOf_start (d : Dag α) (id : NodeId) : (start d).usesOf id = [] := by
  rw [State.usesOf, start, Array.getD_eq_getD_getElem?, Array.getElem?_replicate]
  split <;> rfl

theorem start_clear (d : Dag α) (id : NodeId) : (start d).Clear id := by
  intro x hx hv
  rw [start, Array.getElem?_replicate] at hv
  split at hv <;> simp at hv

end Walk

namespace Dag

theorem walk_eq (hw : d.WellFormed) (root : NodeId) :
    d.walk root =
      ⟨(Walk.explore d root (Walk.start d)).order,
        Walk.byName d (Walk.explore d root (Walk.start d)).vars.toList,
        (Walk.explore d root (Walk.start d)).uses⟩ := by
  rw [walk, Walk.run_root hw]

theorem walk_covers (hw : d.WellFormed) {root : NodeId} (hr : root < d.count) :
    Walk.Covers d root (d.walk root) := by
  obtain ⟨new, hp, hreach⟩ := Walk.explores hw hr (Walk.start d) (Walk.start_sized d)
    (Walk.visited_start d hr) (Walk.start_clear d root)
  rw [walk_eq hw]
  have horder : (Walk.explore d root (Walk.start d)).order.toList = new ++ [root] := by
    simpa [Walk.start] using hp.order
  have hsettled : ∀ done id after, new ++ [root] = done ++ id :: after →
      ∀ x ∈ d.operands id, x ∈ done := by
    intro done id after h x hx
    simpa [Walk.start] using hp.settled done id after h x hx
  constructor
  · exact ⟨new, horder⟩
  · rw [horder]
    exact hp.nodup
  · intro x
    rw [horder]
    constructor
    · intro hx
      rcases List.mem_append.1 hx with hx | hx
      · exact hreach x hx
      · exact List.mem_singleton.1 hx ▸ .refl
    · intro hx
      induction hx with
      | refl => simp
      | tail _ hx ih =>
        obtain ⟨done, after, hsplit⟩ := List.append_of_mem ih
        rw [hsplit]
        exact List.mem_append_left _ (hsettled done _ after hsplit _ hx)
  · rw [horder]
    exact hsettled
  · rw [horder]
    refine (List.mergeSort_perm _ _).trans ?_
    simpa [Walk.start] using hp.vars
  · refine (List.pairwise_mergeSort ?_ ?_ _).imp ?_
    · intro a b c hab hbc
      simp only [decide_eq_true_eq] at *
      exact le_trans hab hbc
    · intro a b
      simpa using le_total _ _
    · intro a b hab
      simpa using hab
  · intro id
    have hu := hp.uses id
    rw [Walk.usesOf_start, List.nil_append, List.nil_append] at hu
    rw [horder]
    exact hu
  · exact hp.sized.uses

theorem Lawful.node?_of_name? (h : d.Lawful) {x : NodeId} {name : String}
    (hx : d.name? x = some name) : d.node? x = some ⟨.var name, []⟩ := by
  obtain ⟨⟨label, operands⟩, hn⟩ := exists_node? (lt_of_isSome_name? (Option.isSome_of_eq_some hx))
  rw [name?, label?_of_node? hn] at hx
  cases h.admits hn with
  | var n => rw [hn, Option.some.inj hx]
  | lit | unary | binary | gradient => cases hx

theorem Lawful.name_injective (h : d.Lawful) {x y : NodeId} {name : String}
    (hx : d.name? x = some name) (hy : d.name? y = some name) : x = y := by
  have hi := (h.wellFormed.index_iff _ x).2 (h.node?_of_name? hx)
  rw [(h.wellFormed.index_iff _ y).2 (h.node?_of_name? hy)] at hi
  exact (Option.some.inj hi).symm

end Dag

namespace Walk.Covers

variable {root : NodeId} {w : Walk}

/-- The slots of the nodes reached are the operand slots under the root. -/
theorem mem_slots_iff (h : Covers d root w) {id : NodeId} {use : Use} :
    (id, use) ∈ w.order.toList.flatMap (slots d) ↔
      d.Reaches root use.consumer ∧ (d.operands use.consumer)[use.position]? = some id := by
  rw [← h.mem_order_iff]
  simp only [slots, List.mem_flatMap, List.mem_map, Prod.exists]
  constructor
  · rintro ⟨c, hc, y, i, hm, heq⟩
    obtain ⟨rfl, rfl⟩ := Prod.mk.inj heq
    exact ⟨hc, List.mem_zipIdx_iff_getElem?.1 hm⟩
  · rintro ⟨hc, hx⟩
    exact ⟨use.consumer, hc, id, use.position, List.mem_zipIdx_iff_getElem?.2 hx, rfl⟩

theorem nodup_slots (h : Covers d root w) :
    ((w.order.toList.flatMap (slots d)).map Prod.snd).Nodup := by
  rw [List.map_flatMap, List.nodup_flatMap]
  refine ⟨fun c _ => ?_, h.nodup.imp fun {a b} hab => ?_⟩
  · have hm : (slots d c).map Prod.snd = ((d.operands c).zipIdx.map Prod.snd).map (Use.mk c) := by
      rw [slots, List.map_map, List.map_map]
      rfl
    rw [hm, List.zipIdx_map_snd]
    exact List.Nodup.map (fun i j hij => (Use.mk.inj hij).2) List.nodup_range'
  · intro use ha hb
    simp only [slots, List.map_map, List.mem_map, Function.comp] at ha hb
    obtain ⟨_, -, rfl⟩ := ha
    obtain ⟨_, -, hb⟩ := hb
    exact hab (Use.mk.inj hb).1.symm

theorem mem_usesOf_iff (h : Covers d root w) {id : NodeId} {use : Use} :
    use ∈ (w.usesOf id).toList ↔
      d.Reaches root use.consumer ∧ (d.operands use.consumer)[use.position]? = some id := by
  rw [(h.uses_perm id).mem_iff, ← h.mem_slots_iff]
  simp [usesAmong]

theorem nodup_usesOf (h : Covers d root w) (id : NodeId) : (w.usesOf id).toList.Nodup := by
  rw [(h.uses_perm id).nodup_iff]
  exact h.nodup_slots.sublist (List.filter_sublist.map _)

theorem mem_freeVars_iff (h : Covers d root w) {v : NodeId} :
    v ∈ w.freeVars ↔ d.Reaches root v ∧ (d.name? v).isSome := by
  rw [h.freeVars_perm.mem_iff, List.mem_filter, h.mem_order_iff]

theorem order_lt (h : Covers d root w) (hw : d.WellFormed) (hroot : root < d.count) :
    ∀ x ∈ w.order.toList, x < d.count :=
  fun x hx => ((h.mem_order_iff x).1 hx).lt_count hw hroot

theorem freeVars_lt (h : Covers d root w) (hw : d.WellFormed) (hroot : root < d.count) :
    ∀ v ∈ w.freeVars, v < d.count :=
  fun _ hv => (h.mem_freeVars_iff.1 hv).1.lt_count hw hroot

theorem nodup_freeVars (h : Covers d root w) : w.freeVars.Nodup :=
  h.freeVars_perm.nodup_iff.2 (h.nodup.filter _)

theorem freeVars_increasing (h : Covers d root w) (hd : d.Lawful) :
    w.freeVars.Pairwise fun x y => (d.name? x).getD "" < (d.name? y).getD "" := by
  have hp := h.nodup_freeVars.and h.freeVars_sorted
  refine hp.imp_of_mem fun {x y} hx hy hxy => lt_of_le_of_ne hxy.2 fun heq => hxy.1 ?_
  obtain ⟨a, ha⟩ := Option.isSome_iff_exists.1 (h.mem_freeVars_iff.1 hx).2
  obtain ⟨b, hb⟩ := Option.isSome_iff_exists.1 (h.mem_freeVars_iff.1 hy).2
  rw [ha, hb] at heq
  obtain rfl : a = b := heq
  exact hd.name_injective ha hb

end Walk.Covers

namespace Dag

/-- The variables under a node have names, which rise strictly. -/
theorem freeVars_names (h : d.Lawful) {root : NodeId} (hroot : root < d.count) :
    ∃ names : List String, (d.freeVars root).map d.name? = names.map some ∧
      names.Pairwise (· < ·) := by
  have hcov := walk_covers h.wellFormed hroot
  refine ⟨(d.freeVars root).map fun v => (d.name? v).getD "", ?_, ?_⟩
  · rw [List.map_map]
    refine List.map_congr_left fun v hv => ?_
    obtain ⟨name, hname⟩ := Option.isSome_iff_exists.1 (hcov.mem_freeVars_iff.1 hv).2
    simp [hname]
  · exact List.pairwise_map.2 (hcov.freeVars_increasing h)

/-- Nodes of a graph and of one that extends it have the same variables in the same order if the
same variables are under them. -/
theorem freeVars_eq {d' : Dag α} (h : d.Lawful) (h' : d'.Lawful) (he : d.Extends d')
    {root root' : NodeId} (hr : root < d.count) (hr' : root' < d'.count)
    (hv : ∀ v, (d'.name? v).isSome → (d'.Reaches root' v ↔ d.Reaches root v)) :
    d'.freeVars root' = d.freeVars root := by
  have hc := walk_covers h.wellFormed hr
  have hc' := walk_covers h'.wellFormed hr'
  have hname : ∀ v, d.Reaches root v → d'.name? v = d.name? v :=
    fun v hreach => he.name? (hreach.lt_count h.wellFormed hr)
  have hmem : ∀ v, v ∈ d'.freeVars root' ↔ v ∈ d.freeVars root := by
    intro v
    rw [freeVars, freeVars, hc'.mem_freeVars_iff, hc.mem_freeVars_iff]
    constructor
    · rintro ⟨hreach, hsome⟩
      have hreach := (hv v hsome).1 hreach
      exact ⟨hreach, hname v hreach ▸ hsome⟩
    · rintro ⟨hreach, hsome⟩
      rw [← hname v hreach] at hsome
      exact ⟨(hv v hsome).2 hreach, hsome⟩
  have hincreasing : (d.freeVars root).Pairwise
      fun x y => (d'.name? x).getD "" < (d'.name? y).getD "" := by
    refine (hc.freeVars_increasing h).imp_of_mem fun {x y} hx hy hxy => ?_
    rwa [hname x (hc.mem_freeVars_iff.1 hx).1, hname y (hc.mem_freeVars_iff.1 hy).1]
  exact ((List.perm_ext_iff_of_nodup hc'.nodup_freeVars hc.nodup_freeVars).2 hmem).eq_of_pairwise
    (fun x y _ _ hxy hyx => absurd hyx (lt_asymm hxy)) (hc'.freeVars_increasing h') hincreasing

end Dag

end SharedExpr

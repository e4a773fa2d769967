import SharedExpr.Proofs.Dag.Uses

/-! The invariant of the table of a graph: what interning keeps, and what it answers. -/
namespace SharedExpr

/-- Spans that follow one another without a gap, from one slot up to another. -/
def Span.Tile : Nat → List Span → Nat → Prop
  | start, [], stop => start = stop
  | start, span :: spans, stop => span.start = start ∧ Tile (start + span.count) spans stop

namespace Dag

variable {α : Type} [Scalar α]

structure WellFormed (d : Dag α) : Prop where
  size_spans : d.spans.size = d.count
  size_newest : d.newest.size = d.count
  /-- There is one link for each slot. -/
  size_links : d.links.size = d.slots.size
  chained : d.Chained
  spans_tile : Span.Tile 0 d.spans.toList d.slots.size
  operands_lt : ∀ id, ∀ x ∈ d.operands id, x < id
  index_iff : ∀ (node : Node α) (id : NodeId), d.index[node]? = some id ↔ d.node? id = some node
  mem_uses_iff : ∀ id use,
    use ∈ d.uses id ↔ (d.operands use.consumer)[use.position]? = some id
  uses_sorted : ∀ id, (d.uses id).Pairwise Use.Newer

end Dag

namespace Span

theorem Tile.concat {start stop : Nat} {spans : List Span} (h : Tile start spans stop) (n : Nat) :
    Tile start (spans ++ [⟨stop, n⟩]) (stop + n) := by
  induction spans generalizing start with
  | nil => exact ⟨Eq.symm h, congrArg (· + n) h⟩
  | cons span spans ih => exact ⟨h.1, ih h.2⟩

theorem Tile.le {start stop : Nat} {spans : List Span} (h : Tile start spans stop) :
    start ≤ stop := by
  induction spans generalizing start with
  | nil => exact Nat.le_of_eq h
  | cons span spans ih => exact Nat.le_trans (Nat.le_add_right _ _) (ih h.2)

theorem Tile.end_le {start stop : Nat} {spans : List Span} (h : Tile start spans stop) {span : Span}
    (hs : span ∈ spans) : span.start + span.count ≤ stop := by
  induction spans generalizing start with
  | nil => simp at hs
  | cons first spans ih =>
    rcases List.mem_cons.1 hs with rfl | hs
    · have hle := Tile.le h.2
      rw [h.1]
      exact hle
    · exact ih h.2 hs

end Span

namespace Dag

variable {α : Type} [Scalar α] {d : Dag α}

theorem node?_eq_some_iff {id : NodeId} {node : Node α} :
    d.node? id = some node ↔ d.label? id = some node.label ∧ d.operands id = node.operands := by
  cases node
  simp [node?]

theorem label?_of_node? {id : NodeId} {node : Node α} (h : d.node? id = some node) :
    d.label? id = some node.label :=
  (node?_eq_some_iff.1 h).1

theorem operands_of_node? {id : NodeId} {node : Node α} (h : d.node? id = some node) :
    d.operands id = node.operands :=
  (node?_eq_some_iff.1 h).2

theorem isSome_node? (id : NodeId) : (d.node? id).isSome ↔ id < d.count := by
  simp [node?, label?, count]

theorem lt_of_node? {id : NodeId} {node : Node α} (h : d.node? id = some node) : id < d.count :=
  (isSome_node? id).1 (by simp [h])

theorem exists_node? {id : NodeId} (h : id < d.count) : ∃ node, d.node? id = some node :=
  Option.isSome_iff_exists.1 ((isSome_node? id).2 h)

theorem node?_eq_none_iff {id : NodeId} : d.node? id = none ↔ d.count ≤ id := by
  simp [node?, label?, count]

theorem bundle?_eq_some_iff {id : NodeId} {parts : Bundle} :
    d.bundle? id = some parts ↔
      d.node? id = some ⟨.gradient parts.vars, parts.primal :: parts.partials⟩ := by
  constructor
  · intro h
    rw [bundle?] at h
    split at h
    · next hn =>
      obtain rfl := Option.some.inj h
      exact hn
    · cases h
  · intro h
    rw [bundle?, h]

@[simp] theorem count_append (node : Node α) : (d.append node).count = d.count + 1 := by
  simp [append_eq, count]

theorem label?_append (node : Node α) (id : NodeId) :
    (d.append node).label? id = if id = d.count then some node.label else d.label? id := by
  rw [label?, append_eq, Array.getElem?_push]
  rfl

theorem uses_append (h : d.WellFormed) {node : Node α} (hx : ∀ x ∈ node.operands, x < d.count)
    (y : NodeId) :
    (d.append node).uses y =
      ((node.operands.zipIdx.filter (·.1 = y)).map fun use => ⟨d.count, use.2⟩).reverse ++
        d.uses y := by
  have hn : (d.addUses d.count node.operands.zipIdx).newest.size = d.count := by
    rw [size_newest_addUses, h.size_newest]
  have hs : ∀ use ∈ node.operands.zipIdx, use.1 < d.newest.size := by
    rintro ⟨x, i⟩ hu
    have hi := List.mem_zipIdx_iff_getElem?.1 hu
    rw [h.size_newest]
    exact hx x (List.mem_of_getElem? hi)
  -- The node's own chain is empty, whether or not it is there.
  have hpush : (d.append node).uses y = (d.addUses d.count node.operands.zipIdx).uses y := by
    rw [uses_eq_chain, uses_eq_chain, append_eq, Array.getElem?_push, hn]
    split
    · next hy =>
      have : (d.addUses d.count node.operands.zipIdx).newest[y]? = none := by
        rw [Array.getElem?_eq_none_iff, hn]
        exact Nat.le_of_eq hy.symm
      rw [this]
      rfl
    · rfl
  rw [hpush, uses_addUses h.chained d.count hs]

theorem operands_append (h : d.WellFormed) (node : Node α) (id : NodeId) :
    (d.append node).operands id = if id = d.count then node.operands else d.operands id := by
  have ha : (d.slots ++ node.operands).toList = d.slots.toList ++ node.operands :=
    Array.toList_appendList
  rw [operands, operands, append_eq, Array.getElem?_push, h.size_spans]
  by_cases hid : id = d.count
  · rw [if_pos hid, if_pos hid]
    simp [ha, List.extract_eq_take_drop]
  · rw [if_neg hid, if_neg hid]
    cases hs : d.spans[id]? with
    | none => rfl
    | some span =>
      have hm : span ∈ d.spans.toList := Array.mem_toList_iff.2 (Array.mem_of_getElem? hs)
      have hle := h.spans_tile.end_le hm
      dsimp only
      rw [Array.toList_extract, Array.toList_extract, ha, List.extract_eq_take_drop,
        List.extract_eq_take_drop, List.drop_append_of_le_length, List.take_append_of_le_length]
      · simp only [List.length_drop, Array.length_toList]
        omega
      · rw [Array.length_toList]
        omega

/-- A node is appended under the next number and changes no other. -/
theorem node?_append (h : d.WellFormed) (node : Node α) (id : NodeId) :
    (d.append node).node? id = if id = d.count then some node else d.node? id := by
  rw [node?, label?_append, operands_append h]
  by_cases hid : id = d.count
  · rw [if_pos hid, if_pos hid, if_pos hid]
    rfl
  · rw [if_neg hid, if_neg hid, if_neg hid]
    rfl

theorem operands_eq_nil {id : NodeId} (h : d.WellFormed) (hid : d.count ≤ id) :
    d.operands id = [] := by
  have hs : d.spans[id]? = none := by
    rw [Array.getElem?_eq_none_iff, h.size_spans]
    exact hid
  rw [operands, hs]

theorem WellFormed.lt_of_operand (h : d.WellFormed) {id x : NodeId} {position : Nat}
    (hx : (d.operands id)[position]? = some x) : id < d.count := by
  by_contra hid
  rw [operands_eq_nil h (Nat.le_of_not_lt hid)] at hx
  cases hx

theorem WellFormed.operand_lt_count (h : d.WellFormed) {id x : NodeId} (hx : x ∈ d.operands id) :
    x < d.count := by
  by_cases hid : d.count ≤ id
  · rw [operands_eq_nil h hid] at hx
    simp at hx
  · exact Nat.lt_trans (h.operands_lt id x hx) (Nat.lt_of_not_le hid)

theorem WellFormed.lt_of_mem_operands (h : d.WellFormed) {id x : NodeId} {node : Node α}
    (hn : d.node? id = some node) (hx : x ∈ node.operands) : x < d.count :=
  h.operand_lt_count (operands_of_node? hn ▸ hx)

theorem wellFormed_empty : (empty : Dag α).WellFormed where
  size_spans := rfl
  size_newest := rfl
  size_links := rfl
  chained := ⟨fun id i hi => by simp [empty] at hi, fun i link j hi _ => by simp [empty] at hi⟩
  spans_tile := rfl
  operands_lt id x hx := by simp [operands, empty] at hx
  index_iff node id := by simp [empty, node?, label?]
  mem_uses_iff id use := by simp [uses, operands, empty]
  uses_sorted id := by simp [uses, empty]

theorem WellFormed.consumer_lt (h : d.WellFormed) {id : NodeId} {use : Use}
    (hu : use ∈ d.uses id) : use.consumer < d.count :=
  h.lt_of_operand ((h.mem_uses_iff id use).1 hu)

theorem index_append_iff (h : d.WellFormed) {node : Node α} (hnew : ∀ id, d.node? id ≠ some node)
    (other : Node α) (id : NodeId) :
    (d.append node).index[other]? = some id ↔ (d.append node).node? id = some other := by
  rw [node?_append h]
  simp only [append_eq, Std.HashMap.getElem?_insert, beq_iff_eq]
  by_cases hn : node = other
  · subst hn
    rw [if_pos rfl]
    by_cases hid : id = d.count
    · simp [hid]
    · simp [hid, hnew, Ne.symm hid]
  · rw [if_neg hn, h.index_iff]
    by_cases hid : id = d.count
    · have hnone : d.node? id = none := node?_eq_none_iff.2 (Nat.le_of_eq hid.symm)
      simp [hid, hn, hid ▸ hnone]
    · simp [hid]

/-- The uses after a node is appended are those in the operands after it is. -/
theorem mem_uses_append_iff (h : d.WellFormed) {node : Node α}
    (hx : ∀ x ∈ node.operands, x < d.count) (id : NodeId) (use : Use) :
    use ∈ (d.append node).uses id ↔
      ((d.append node).operands use.consumer)[use.position]? = some id := by
  rw [uses_append h hx, operands_append h, List.mem_append, List.mem_reverse, List.mem_map]
  by_cases hc : use.consumer = d.count
  · have hno : use ∉ d.uses id := fun hu => Nat.ne_of_lt (h.consumer_lt hu) hc
    rw [if_pos hc, or_iff_left hno]
    constructor
    · rintro ⟨⟨x, i⟩, hu, rfl⟩
      obtain ⟨hm, hxi⟩ := List.mem_filter.1 hu
      obtain rfl : x = id := by simpa using hxi
      exact List.mem_zipIdx_iff_getElem?.1 hm
    · intro hop
      refine ⟨(id, use.position), ?_, by simp [← hc]⟩
      exact List.mem_filter.2 ⟨List.mem_zipIdx_iff_getElem?.2 hop, by simp⟩
  · have hno : ¬ ∃ u ∈ node.operands.zipIdx.filter (·.1 = id), Use.mk d.count u.2 = use := by
      rintro ⟨u, -, rfl⟩
      exact hc rfl
    rw [if_neg hc, or_iff_right hno]
    exact h.mem_uses_iff id use

/-- The uses by the appended node come first, the last position before the others. -/
theorem uses_append_sorted (h : d.WellFormed) {node : Node α}
    (hx : ∀ x ∈ node.operands, x < d.count) (id : NodeId) :
    ((d.append node).uses id).Pairwise Use.Newer := by
  rw [uses_append h hx, List.pairwise_append]
  refine ⟨?_, h.uses_sorted id, ?_⟩
  · have hp : node.operands.zipIdx.Pairwise fun a b => a.2 < b.2 := by
      rw [← List.pairwise_map (f := Prod.snd) (R := (· < ·)), List.zipIdx_map_snd]
      exact List.pairwise_lt_range'
    rw [List.pairwise_reverse, List.pairwise_map]
    exact (hp.sublist List.filter_sublist).imp fun hlt => Or.inr ⟨rfl, hlt⟩
  · intro a ha b hb
    obtain ⟨u, -, rfl⟩ := List.mem_map.1 (List.mem_reverse.1 ha)
    exact Or.inl (h.consumer_lt hb)

/-- Appending a node that is not there yet keeps the invariant. -/
theorem WellFormed.append (h : d.WellFormed) {node : Node α}
    (hx : ∀ x ∈ node.operands, x < d.count) (hnew : ∀ id, d.node? id ≠ some node) :
    (d.append node).WellFormed := by
  have hs : (d.slots ++ node.operands).size = d.slots.size + node.operands.length := by
    rw [← Array.length_toList, Array.toList_appendList, List.length_append, Array.length_toList]
  constructor
  · simp [append_eq, count, h.size_spans]
  · simp [append_eq, count, size_newest_addUses, h.size_newest]
  · simp [append_eq, size_links_addUses, h.size_links, hs]
  · have hc := h.chained.addUses d.count node.operands.zipIdx
    rw [append_eq]
    refine ⟨fun id i hi => ?_, hc.older_lt⟩
    rw [Array.getElem?_push] at hi
    split at hi
    · simp at hi
    · exact hc.newest_lt id i hi
  · have ht := h.spans_tile.concat node.operands.length
    simpa [append_eq, hs] using ht
  · intro id x hm
    rw [operands_append h] at hm
    split at hm
    · next hid => exact hid ▸ hx x hm
    · exact h.operands_lt id x hm
  · exact index_append_iff h hnew
  · exact mem_uses_append_iff h hx
  · exact uses_append_sorted h hx

/-- Looking up a node that is there answers its number and changes nothing. -/
theorem intern_of_node? (h : d.WellFormed) {node : Node α} {id : NodeId}
    (hn : d.node? id = some node) : d.intern node = (id, d) := by
  rw [intern, (h.index_iff node id).2 hn]

theorem index_of_new (h : d.WellFormed) {node : Node α} (hnew : ∀ id, d.node? id ≠ some node) :
    d.index[node]? = none := by
  rw [Option.eq_none_iff_forall_ne_some]
  exact fun id hid => hnew id ((h.index_iff node id).1 hid)

theorem intern_of_new (h : d.WellFormed) {node : Node α} (hnew : ∀ id, d.node? id ≠ some node) :
    d.intern node = (d.count, d.append node) := by
  rw [intern, index_of_new h hnew]

theorem intern_cases (h : d.WellFormed) (node : Node α) :
    (∃ id, d.node? id = some node ∧ d.intern node = (id, d)) ∨
    (∀ id, d.node? id ≠ some node) ∧ d.intern node = (d.count, d.append node) := by
  by_cases hn : ∃ id, d.node? id = some node
  · obtain ⟨id, hid⟩ := hn
    exact Or.inl ⟨id, hid, intern_of_node? h hid⟩
  · rw [not_exists] at hn
    exact Or.inr ⟨hn, intern_of_new h hn⟩

theorem count_intern_le (h : d.WellFormed) (node : Node α) :
    (d.intern node).2.count ≤ d.count + 1 := by
  rcases intern_cases h node with ⟨id, -, hi⟩ | ⟨-, hi⟩
  · rw [hi]
    exact Nat.le_succ _
  · rw [hi]
    exact Nat.le_of_eq (count_append node)

theorem WellFormed.intern (h : d.WellFormed) {node : Node α}
    (hx : ∀ x ∈ node.operands, x < d.count) : (d.intern node).2.WellFormed := by
  rcases intern_cases h node with ⟨id, -, hi⟩ | ⟨hn, hi⟩
  · rw [hi]
    exact h
  · rw [hi]
    exact h.append hx hn

end Dag

end SharedExpr

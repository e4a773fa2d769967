import Mathlib
import SharedExpr.Double.Text
import SharedExpr.Print.Dot
import SharedExpr.Proofs.Dag.PostOrder
import SharedExpr.Proofs.Session

/-! A drawing has a vertex for each node under its root and an edge for each operand slot. -/
namespace SharedExpr

variable {α : Type} [Scalar α] {d : Dag α}

namespace Drawing

/-- The edges into the vertex of a node, if the vertices are those of some nodes in order. -/
def edgesInto (d : Dag α) (nodes : List NodeId) (id : NodeId) : List (Nat × Nat × Nat) :=
  (d.operands id).zipIdx.map fun slot => (nodes.idxOf slot.1, nodes.idxOf id, slot.2)

theorem nodup_edges {nodes : List NodeId} (hnodup : nodes.Nodup) :
    (nodes.flatMap (edgesInto d nodes)).Nodup := by
  rw [List.nodup_flatMap]
  constructor
  · intro c _
    have hpositions : ((edgesInto d nodes c).map fun edge => edge.2.2).Nodup := by
      rw [edgesInto, List.map_map]
      exact (List.zipIdx_map_snd 0 (d.operands c)).symm ▸ List.nodup_range'
    exact .of_map _ hpositions
  · refine hnodup.imp_of_mem fun {a b} ha _ hab edge hedge hedge' => hab ?_
    obtain ⟨_, -, rfl⟩ := List.mem_map.1 hedge
    obtain ⟨_, -, he⟩ := List.mem_map.1 hedge'
    exact (List.idxOf_inj ha).1 (Prod.mk.inj (Prod.mk.inj he).2).1.symm

theorem mem_edges_iff {nodes : List NodeId} (hclosed : d.Closed nodes) (hnodup : nodes.Nodup)
    {i j position : Nat} :
    (i, j, position) ∈ nodes.flatMap (edgesInto d nodes) ↔
      ∃ x id, nodes[i]? = some x ∧ nodes[j]? = some id ∧ (d.operands id)[position]? = some x := by
  have hplace : ∀ {x i}, nodes[i]? = some x ↔ x ∈ nodes ∧ nodes.idxOf x = i := by
    intro x i
    constructor
    · intro hx
      obtain ⟨hi, rfl⟩ := List.getElem?_eq_some_iff.1 hx
      exact ⟨List.getElem_mem hi, hnodup.idxOf_getElem i hi⟩
    · rintro ⟨hm, rfl⟩
      exact List.getElem?_idxOf hm
  simp only [List.mem_flatMap, edgesInto, List.mem_map, List.mem_zipIdx_iff_getElem?, hplace,
    Prod.mk.injEq, Prod.exists]
  constructor
  · rintro ⟨id, hid, x, p, hx, rfl, rfl, rfl⟩
    exact ⟨x, id, ⟨hclosed id hid x (List.mem_of_getElem? hx), rfl⟩, ⟨hid, rfl⟩, hx⟩
  · rintro ⟨x, id, ⟨-, rfl⟩, ⟨hid, rfl⟩, hx⟩
    exact ⟨id, hid, x, position, hx, rfl, rfl, rfl⟩

variable [ScalarText α]

/-- A drawing of some nodes, among which are the operands of each of them. -/
structure State.Draws (d : Dag α) (s : State) (nodes : List NodeId) : Prop where
  closed : d.Closed nodes
  vertices : s.drawing.vertices.toList.map some = nodes.map fun id => (d.label? id).map labelText
  edges : s.drawing.edges.toList = nodes.flatMap (edgesInto d nodes)
  vertexOf : ∀ id ∈ nodes, s.vertexOf[id]? = some (nodes.idxOf id)

/-- No edge is left out if all operands are drawn. -/
theorem foldl_connect {s : State} (vertex : Nat) (place : NodeId → Nat)
    {slots : List (NodeId × Nat)} (h : ∀ slot ∈ slots, s.vertexOf[slot.1]? = some (place slot.1)) :
    (slots.foldl (State.connect vertex) s).vertexOf = s.vertexOf ∧
    (slots.foldl (State.connect vertex) s).drawing.vertices = s.drawing.vertices ∧
    (slots.foldl (State.connect vertex) s).drawing.edges.toList =
      s.drawing.edges.toList ++ slots.map fun slot => (place slot.1, vertex, slot.2) := by
  induction slots generalizing s with
  | nil => simp
  | cons slot slots ih =>
    obtain ⟨hslot, hslots⟩ := List.forall_mem_cons.1 h
    have hconnect : State.connect vertex s slot =
        ⟨⟨s.drawing.vertices, s.drawing.edges.push (place slot.1, vertex, slot.2)⟩,
          s.vertexOf⟩ := by
      rw [State.connect, hslot]
    obtain ⟨hof, hvertices, hedges⟩ := ih (s := State.connect vertex s slot) (by rwa [hconnect])
    rw [List.foldl_cons, hof, hvertices, hedges, hconnect]
    simp

namespace State.Draws

variable {s : State} {nodes : List NodeId} {id : NodeId}

theorem add (hs : s.Draws d nodes) (hnew : id ∉ nodes) (hid : id < d.count)
    (hx : ∀ x ∈ d.operands id, x ∈ nodes) : (s.add d id).Draws d (nodes ++ [id]) := by
  obtain ⟨node, hn⟩ := Dag.exists_node? hid
  have hlabel := Dag.label?_of_node? hn
  have hsize : s.drawing.vertices.size = nodes.length := by
    simpa using congrArg List.length hs.vertices
  have hold : ∀ x ∈ nodes, (nodes ++ [id]).idxOf x = nodes.idxOf x :=
    fun x hm => List.idxOf_append_of_mem hm
  have hlast : (nodes ++ [id]).idxOf id = nodes.length := by
    rw [List.idxOf_append_of_notMem hnew]
    simp
  have hof : ∀ x ∈ nodes ++ [id], (s.vertexOf.insert id s.drawing.vertices.size)[x]? =
      some ((nodes ++ [id]).idxOf x) := by
    intro x hm
    rw [Std.HashMap.getElem?_insert, hsize]
    rcases List.mem_append.1 hm with hm | hm
    · have hne : id ≠ x := fun he => hnew (he ▸ hm)
      rw [if_neg (by simpa using hne), hs.vertexOf x hm, hold x hm]
    · obtain rfl := List.mem_singleton.1 hm
      rw [if_pos (by simp), hlast]
  have hinto : ∀ c ∈ nodes, edgesInto d (nodes ++ [id]) c = edgesInto d nodes c := by
    intro c hc
    refine List.map_congr_left fun slot hm => ?_
    have hm := List.mem_of_getElem? (List.mem_zipIdx_iff_getElem?.1 hm)
    rw [hold c hc, hold slot.1 (hs.closed c hc slot.1 hm)]
  obtain ⟨hof', hvertices, hedges⟩ := foldl_connect
    (s := ⟨⟨s.drawing.vertices.push ((d.label? id).elim "" labelText), s.drawing.edges⟩,
      s.vertexOf.insert id s.drawing.vertices.size⟩)
    s.drawing.vertices.size (nodes ++ [id]).idxOf fun (slot : NodeId × Nat) hm =>
      hof slot.1 (List.mem_append_left _
        (hx slot.1 (List.mem_of_getElem? (List.mem_zipIdx_iff_getElem?.1 hm))))
  refine ⟨?_, ?_, ?_, fun x hm => ?_⟩
  · refine List.forall_mem_append.2
      ⟨fun c hc x hm => ?_, List.forall_mem_singleton.2 fun x hm => ?_⟩
    · exact List.mem_append_left _ (hs.closed c hc x hm)
    · exact List.mem_append_left _ (hx x hm)
  · rw [State.add, hvertices]
    simp [hs.vertices, hlabel]
  · rw [State.add, hedges, List.flatMap_append, hs.edges, List.flatMap_congr hinto]
    simp [edgesInto, hsize, hlast]
  · rw [State.add, hof']
    exact hof x hm

theorem foldl_add {todo : List NodeId} (hs : s.Draws d nodes) (hnodup : (nodes ++ todo).Nodup)
    (hlt : ∀ id ∈ todo, id < d.count)
    (hsettled : ∀ done id after, nodes ++ todo = done ++ id :: after →
      ∀ x ∈ d.operands id, x ∈ done) :
    (todo.foldl (State.add d) s).Draws d (nodes ++ todo) := by
  induction todo generalizing s nodes with
  | nil => rwa [List.append_nil]
  | cons id todo ih =>
    obtain ⟨hid, hlt⟩ := List.forall_mem_cons.1 hlt
    have hsplit : nodes ++ id :: todo = (nodes ++ [id]) ++ todo := by simp
    have hnew : id ∉ nodes := fun hm =>
      (List.nodup_append.1 hnodup).2.2 id hm id List.mem_cons_self rfl
    have hadd := hs.add hnew hid (hsettled nodes id todo rfl)
    rw [hsplit] at hnodup hsettled ⊢
    exact ih hadd hnodup hlt hsettled

end State.Draws

end Drawing

namespace Dag

open Drawing

variable [ScalarText α]

theorem draws_drawing (hw : d.WellFormed) {root : NodeId} (hroot : root < d.count) :
    ∃ s : Drawing.State, s.drawing = d.drawing root ∧ s.Draws d (d.walk root).order.toList := by
  have hcov := walk_covers hw hroot
  have hempty : (⟨⟨#[], #[]⟩, ∅⟩ : Drawing.State).Draws d [] :=
    ⟨by simp [Closed], rfl, rfl, by simp⟩
  refine ⟨_, ?_, hempty.foldl_add hcov.nodup (hcov.order_lt hw hroot) hcov.settled⟩
  rw [drawing, Array.foldl_toList]

/-- The drawing of a node loses nothing. It has a vertex for each node under the root, with its
label, in the order of the walk. Its edges are those from the operands of these nodes, in the order
of the consumers and then of the positions: one edge for each operand slot, be it that the same
node stands in several of them. -/
theorem Reachable.drawing_complete (h : d.Reachable) {root : NodeId} (hroot : root < d.count) :
    let nodes := (d.walk root).order.toList
    let edges := (d.drawing root).edges.toList
    (nodes.Nodup ∧ ∀ id, id ∈ nodes ↔ d.Reaches root id) ∧
    (d.drawing root).vertices.toList.map some =
      nodes.map (fun id => (d.label? id).map Drawing.labelText) ∧
    edges = nodes.flatMap (fun id => (d.operands id).zipIdx.map fun slot =>
      (nodes.idxOf slot.1, nodes.idxOf id, slot.2)) ∧
    edges.Nodup ∧
    (∀ i j position, (i, j, position) ∈ edges ↔ ∃ x id,
      nodes[i]? = some x ∧ nodes[j]? = some id ∧ (d.operands id)[position]? = some x) ∧
    edges.length = (nodes.map fun id => (d.operands id).length).sum := by
  intro nodes edges
  have hw := h.lawful.wellFormed
  have hcov := walk_covers hw hroot
  obtain ⟨s, hs, hdraws⟩ := draws_drawing hw hroot
  have hedges : edges = nodes.flatMap (edgesInto d nodes) := by
    rw [← hdraws.edges, hs]
  refine ⟨⟨hcov.nodup, hcov.mem_order_iff⟩, hs ▸ hdraws.vertices, hedges, ?_, ?_, ?_⟩
  · rw [hedges]
    exact nodup_edges hcov.nodup
  · intro i j position
    rw [hedges]
    exact mem_edges_iff hdraws.closed hcov.nodup
  · rw [hedges, List.length_flatMap]
    simp [edgesInto]

def sinePlusTwo : Expr Double :=
  .binary .add (.lit Double.two) (.unary .sin (.binary .pow (.var "x") (.var "x")))

/-- The sum of two and a sine, and a bundle of that with the variable. -/
def bundledSum : Dag Double :=
  ((Command.gradient ⟨4, [1], [1]⟩).run ((Command.build sinePlusTwo).run empty).2).2

theorem reachable_bundledSum : bundledSum.Reachable := by
  have hsum : ((Command.build sinePlusTwo).run (empty : Dag Double)).1 = some (.node 4) := by cbv
  have hbundle : ((Command.gradient ⟨4, [1], [1]⟩).run
      ((Command.build sinePlusTwo).run (empty : Dag Double)).2).1 = some (.node 5) := by cbv
  exact (Reachable.empty.next hsum).next hbundle

/-- The power has two edges from the variable, and the bundle a third one. -/
theorem bundledSum_drawing_complete :
    (bundledSum.drawing 5).vertices.toList = ["2", "x", "^", "sin", "+", "gradient"] ∧
    (bundledSum.drawing 5).edges.toList =
      [(1, 2, 0), (1, 2, 1), (2, 3, 0), (0, 4, 0), (3, 4, 1), (4, 5, 0), (1, 5, 1)] := by
  have hroot : (5 : NodeId) < bundledSum.count := by cbv
  have horder : (bundledSum.walk 5).order.toList = [0, 1, 2, 3, 4, 5] := by cbv
  obtain ⟨-, hvertices, hedges, -⟩ := reachable_bundledSum.drawing_complete hroot
  have hlabels : [0, 1, 2, 3, 4, 5].map bundledSum.label? =
      [some (.lit Double.two), some (.var "x"), some (.binary .pow), some (.unary .sin),
        some (.binary .add), some (.gradient [1])] := by cbv
  have hoperands : [0, 1, 2, 3, 4, 5].map bundledSum.operands =
      [[], [], [1, 1], [2], [0, 3], [4, 1]] := by cbv
  have htwo : ScalarText.plain Double.two = "2" := by decide +kernel
  simp only [List.map_cons, List.map_nil, List.cons.injEq] at hlabels hoperands
  constructor
  · refine List.map_injective_iff.2 (Option.some_injective _) (hvertices.trans ?_)
    simp [horder, hlabels, Drawing.labelText, htwo, Unary.name, Binary.symbol]
  · simp [hedges, horder, hoperands, List.idxOf_cons]

end Dag

end SharedExpr

import Mathlib.Data.List.Basic
import SharedExpr.Dag.Basic

/-! The chains of uses of a table, while uses are recorded. -/
namespace SharedExpr

/-- The order in which the uses of a node are listed: by consumer and then by position, both
falling. -/
def Use.Newer (a b : Use) : Prop :=
  b.consumer < a.consumer ∨ a.consumer = b.consumer ∧ b.position < a.position

namespace Dag

variable {α : Type} [Scalar α]

/-- Every number of a link is below their count, and every link points to an older one. -/
structure Chained (d : Dag α) : Prop where
  newest_lt : ∀ id i : Nat, d.newest[id]? = some (some i) → i < d.links.size
  older_lt : ∀ (i : Nat) (link : Link) (j : Nat),
    d.links[i]? = some link → link.older = some j → j < i

/-- The uses that a chain holds from its head on. -/
def chain (links : Array Link) : Option Nat → List Use
  | none => []
  | some i => usesFrom links i

theorem uses_eq_chain (d : Dag α) (id : NodeId) : d.uses id = chain d.links d.newest[id]?.join := by
  rw [uses]
  cases d.newest[id]? with
  | none => rfl
  | some head => cases head <;> rfl

theorem usesFrom_eq_cons {links : Array Link} {i : Nat} {link : Link} (hi : links[i]? = some link)
    (ho : ∀ j, link.older = some j → j < i) :
    usesFrom links i = link.use :: chain links link.older := by
  rw [usesFrom, hi]
  cases hj : link.older with
  | none => simp [chain, hj]
  | some j => simp [chain, hj, ho j hj]

theorem usesFrom_push (links : Array Link) (link : Link) {i : Nat} (hi : i < links.size) :
    usesFrom (links.push link) i = usesFrom links i := by
  induction i using Nat.strongRecOn with
  | _ i ih =>
    rw [usesFrom, usesFrom, Array.getElem?_push_lt hi, Array.getElem?_eq_getElem hi]
    dsimp only
    cases links[i].older with
    | none => rfl
    | some j =>
      by_cases hj : j < i
      · simp only [if_pos hj, ih j hj (by omega)]
      · simp only [if_neg hj]

theorem chain_push (links : Array Link) (link : Link) {head : Option Nat}
    (h : ∀ i, head = some i → i < links.size) :
    chain (links.push link) head = chain links head := by
  cases head with
  | none => rfl
  | some i => exact usesFrom_push links link (h i rfl)

theorem addUse_links (d : Dag α) (x : NodeId) (use : Use) :
    (d.addUse x use).links = d.links.push ⟨use, d.newest[x]?.join⟩ := by
  rw [Dag.addUse, Array.getD_eq_getD_getElem?]
  cases d.newest[x]? <;> rfl

theorem Chained.head_lt {d : Dag α} (h : d.Chained) (id : NodeId) :
    ∀ i, d.newest[id]?.join = some i → i < d.links.size :=
  fun i hi => h.newest_lt id i (Option.join_eq_some_iff.1 hi)

theorem Chained.addUse {d : Dag α} (h : d.Chained) (x : NodeId) (use : Use) :
    (d.addUse x use).Chained := by
  constructor
  · intro id i hi
    have hs : (d.addUse x use).links.size = d.links.size + 1 := by simp [addUse_links]
    rw [Dag.addUse, Array.getElem?_setIfInBounds] at hi
    split at hi
    · split at hi
      · have hi : d.links.size = i := by simpa using hi
        omega
      · simp at hi
    · have := h.newest_lt id i hi
      omega
  · intro i link j hi hj
    rw [addUse_links, Array.getElem?_push] at hi
    split at hi
    · obtain rfl : _ = link := Option.some.inj hi
      have := h.head_lt x j hj
      omega
    · exact h.older_lt i link j hi hj

/-- A use that is recorded comes before all earlier uses of its operand. -/
theorem uses_addUse {d : Dag α} (h : d.Chained) {x : NodeId} (hx : x < d.newest.size) (use : Use)
    (y : NodeId) : (d.addUse x use).uses y = if y = x then use :: d.uses y else d.uses y := by
  have hn : (d.addUse x use).newest[y]? =
      if x = y then some (some d.links.size) else d.newest[y]? := by
    rw [Dag.addUse, Array.getElem?_setIfInBounds, if_pos hx]
  rw [uses_eq_chain, hn, addUse_links]
  by_cases hy : y = x
  · subst hy
    rw [if_pos rfl, if_pos rfl, uses_eq_chain]
    show usesFrom _ d.links.size = _
    rw [usesFrom_eq_cons Array.getElem?_push_size (h.head_lt y)]
    exact congrArg (use :: ·) (chain_push _ _ (h.head_lt y))
  · rw [if_neg (Ne.symm hy), if_neg hy, uses_eq_chain]
    exact chain_push _ _ (h.head_lt y)

def addUses (d : Dag α) (consumer : NodeId) (slots : List (NodeId × Nat)) : Dag α :=
  slots.foldl (fun d use => d.addUse use.1 ⟨consumer, use.2⟩) d

theorem append_eq (d : Dag α) (node : Node α) :
    d.append node =
      { labels := d.labels.push node.label
        slots := d.slots ++ node.operands
        spans := d.spans.push ⟨d.slots.size, node.operands.length⟩
        newest := (d.addUses d.count node.operands.zipIdx).newest.push none
        links := (d.addUses d.count node.operands.zipIdx).links
        index := d.index.insert node d.count } := by
  have h : ∀ (slots : List (NodeId × Nat)) (e : Dag α),
      (e.addUses d.count slots).labels = e.labels ∧ (e.addUses d.count slots).spans = e.spans ∧
      (e.addUses d.count slots).slots = e.slots ∧ (e.addUses d.count slots).index = e.index := by
    intro slots
    induction slots with
    | nil => exact fun e => ⟨rfl, rfl, rfl, rfl⟩
    | cons use slots ih => exact fun e => ih (e.addUse use.1 ⟨d.count, use.2⟩)
  obtain ⟨hl, hp, hs, hi⟩ := h node.operands.zipIdx d
  rw [addUses] at hl hp hs hi
  simp only [append, addUses, hl, hp, hs, hi]

theorem size_newest_addUses (d : Dag α) (consumer : NodeId) (slots : List (NodeId × Nat)) :
    (d.addUses consumer slots).newest.size = d.newest.size := by
  induction slots generalizing d with
  | nil => rfl
  | cons use slots ih => exact (ih _).trans Array.size_setIfInBounds

theorem size_links_addUses (d : Dag α) (consumer : NodeId) (slots : List (NodeId × Nat)) :
    (d.addUses consumer slots).links.size = d.links.size + slots.length := by
  induction slots generalizing d with
  | nil => rfl
  | cons use slots ih =>
    show ((d.addUse use.1 ⟨consumer, use.2⟩).addUses consumer slots).links.size = _
    rw [ih, addUse_links, Array.size_push, List.length_cons]
    omega

theorem Chained.addUses {d : Dag α} (h : d.Chained) (consumer : NodeId)
    (slots : List (NodeId × Nat)) : (d.addUses consumer slots).Chained := by
  induction slots generalizing d with
  | nil => exact h
  | cons use slots ih => exact ih (h.addUse use.1 ⟨consumer, use.2⟩)

/-- The uses by one consumer are listed before all earlier ones, the last position first. -/
theorem uses_addUses {d : Dag α} (h : d.Chained) (consumer : NodeId) {slots : List (NodeId × Nat)}
    (hs : ∀ use ∈ slots, use.1 < d.newest.size) (y : NodeId) :
    (d.addUses consumer slots).uses y =
      ((slots.filter (·.1 = y)).map fun use => ⟨consumer, use.2⟩).reverse ++ d.uses y := by
  induction slots generalizing d with
  | nil => rfl
  | cons use slots ih =>
    have hx := hs use List.mem_cons_self
    have hrest : ∀ u ∈ slots, u.1 < (d.addUse use.1 ⟨consumer, use.2⟩).newest.size := by
      intro u hu
      simpa [addUse] using hs u (List.mem_cons_of_mem _ hu)
    show ((d.addUse use.1 ⟨consumer, use.2⟩).addUses consumer slots).uses y = _
    rw [ih (h.addUse _ _) hrest, uses_addUse h hx]
    by_cases hy : use.1 = y
    · rw [if_pos hy.symm, List.filter_cons_of_pos (by simpa using hy)]
      simp
    · rw [if_neg (Ne.symm hy), List.filter_cons_of_neg (by simpa using hy)]

end Dag

end SharedExpr

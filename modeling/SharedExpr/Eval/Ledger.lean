import SharedExpr.Access.Table

/-! The values of nodes in places by number, which an evaluator clears and uses again. -/
namespace SharedExpr

/-- A place for the value of each node and, apart from that, the values of the parts of gradients.
Places are made when they are needed and never given up. -/
structure Ledger (α : Type) where
  places : Array (Option α)
  bundles : Std.HashMap NodeId (List α)

namespace Ledger

variable {α : Type}

def empty : Ledger α :=
  ⟨#[], ∅⟩

def get? (l : Ledger α) (node : NodeId) : Option α :=
  l.places[node]?.join

def bundle? (l : Ledger α) (node : NodeId) : Option (List α) :=
  l.bundles[node]?

def reserve (l : Ledger α) (size : Nat) : Ledger α :=
  { l with places := l.places ++ Array.replicate (size - l.places.size) none }

def insert (l : Ledger α) (node : NodeId) (value : α) : Access (Ledger α) :=
  let l := l.reserve (node + 1)
  if _h : node < l.places.size then some { l with places := l.places.set node (some value) }
  else none

def insertBundle (l : Ledger α) (node : NodeId) (values : List α) : Ledger α :=
  { l with bundles := l.bundles.insert node values }

def clear (l : Ledger α) : Ledger α :=
  ⟨l.places.map fun _ => none, ∅⟩

theorem get?_reserve (l : Ledger α) (size : Nat) (node : NodeId) :
    (l.reserve size).get? node = l.get? node := by
  rw [get?, get?, reserve, Array.getElem?_append]
  split
  · rfl
  · next h =>
    rw [Array.getElem?_replicate, Array.getElem?_eq_none (Nat.le_of_not_lt h)]
    split <;> rfl

@[simp] theorem get?_clear (l : Ledger α) (node : NodeId) : l.clear.get? node = none := by
  rw [get?, clear, Array.getElem?_map]
  cases l.places[node]? <;> rfl

@[simp] theorem bundle?_clear (l : Ledger α) (node : NodeId) : l.clear.bundle? node = none := by
  simp [bundle?, clear]

/-- There is always a place to write to, and no other value changes. -/
theorem exists_insert (l : Ledger α) (node : NodeId) (value : α) :
    ∃ l', l.insert node value = some l' ∧ l'.bundles = l.bundles ∧
      ∀ x, l'.get? x = if node = x then some value else l.get? x := by
  have hlt : node < (l.reserve (node + 1)).places.size := by
    rw [reserve, Array.size_append, Array.size_replicate]
    exact Nat.lt_of_lt_of_le (Nat.lt_succ_self node) (by omega)
  refine ⟨_, dif_pos hlt, rfl, fun x => ?_⟩
  rw [get?, Array.getElem?_set]
  split
  · rfl
  · exact l.get?_reserve (node + 1) x

end Ledger

end SharedExpr

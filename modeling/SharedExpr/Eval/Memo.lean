import SharedExpr.Dag.Basic

/-! The values of nodes under one assignment of the variables. -/
namespace SharedExpr

/-- The values found so far; for a gradient also the values of its parts. -/
structure Memo (α : Type) where
  values : Std.HashMap NodeId α
  bundles : Std.HashMap NodeId (List α)

namespace Memo

variable {α : Type}

def empty : Memo α :=
  ⟨∅, ∅⟩

def get? (m : Memo α) (node : NodeId) : Option α :=
  m.values[node]?

def bundle? (m : Memo α) (node : NodeId) : Option (List α) :=
  m.bundles[node]?

def insert (m : Memo α) (node : NodeId) (value : α) : Memo α :=
  { m with values := m.values.insert node value }

def insertBundle (m : Memo α) (node : NodeId) (values : List α) : Memo α :=
  { m with bundles := m.bundles.insert node values }

@[simp] theorem get?_empty (node : NodeId) : (empty : Memo α).get? node = none := by
  simp [get?, empty]

@[simp] theorem bundle?_empty (node : NodeId) : (empty : Memo α).bundle? node = none := by
  simp [bundle?, empty]

theorem get?_insert (m : Memo α) (node x : NodeId) (value : α) :
    (m.insert node value).get? x = if node = x then some value else m.get? x := by
  simp [get?, insert, Std.HashMap.getElem?_insert]

@[simp] theorem get?_insertBundle (m : Memo α) (node x : NodeId) (values : List α) :
    (m.insertBundle node values).get? x = m.get? x := rfl

theorem bundle?_insertBundle (m : Memo α) (node x : NodeId) (values : List α) :
    (m.insertBundle node values).bundle? x = if node = x then some values else m.bundle? x := by
  simp [bundle?, insertBundle, Std.HashMap.getElem?_insert]

@[simp] theorem bundle?_insert (m : Memo α) (node x : NodeId) (value : α) :
    (m.insert node value).bundle? x = m.bundle? x := rfl

end Memo

end SharedExpr

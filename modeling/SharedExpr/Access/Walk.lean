import SharedExpr.Access.Table
import SharedExpr.Dag.Walk

/-! The depth-first walk with every access to the table: a loop on a stack of nodes, each with the
position of its next operand, which goes on until the stack is empty. It comes to an end on any
table. -/
namespace SharedExpr.Access

variable {α : Type} [Scalar α]

/-- A node entered and not yet left, with the position of its next operand. -/
abbrev Entered := NodeId × Nat

def enter (d : Dag α) (id : NodeId) (s : Walk.State) (stack : List Entered) :
    Access (Walk.State × List Entered) := do
  if ← s.visited[id]? then return (s, stack)
  else
    let name ← d.nameAt id
    let s := { s with
      visited := s.visited.setIfInBounds id true
      vars := if name.isSome then s.vars.push id else s.vars }
    return (s, (id, 0) :: stack)

/-- The turns left on a stack if it meets no new node. -/
def turns (d : Dag α) : List Entered → Nat
  | [] => 0
  | (node, position) :: rest =>
    ((d.operandsAt node).getD []).length - position + 1 + turns d rest

/-- What is entered is new, or else nothing happens. -/
theorem enter_cases {d : Dag α} {id : NodeId} {s s' : Walk.State} {stack stack' : List Entered}
    (h : enter d id s stack = some (s', stack')) :
    s'.unvisited < s.unvisited ∨ s' = s ∧ stack' = stack := by
  rw [enter] at h
  cases hv : s.visited[id]? with
  | none =>
    rw [hv] at h
    cases h
  | some seen =>
    cases seen with
    | true =>
      rw [hv] at h
      cases h
      exact .inr ⟨rfl, rfl⟩
    | false =>
      rw [hv] at h
      cases hn : d.nameAt id with
      | none =>
        rw [hn] at h
        cases h
      | some name =>
        rw [hn] at h
        cases h
        exact .inl (Walk.unvisited_visit d s hv)

def search (d : Dag α) (s : Walk.State) (stack : List Entered) : Access Walk.State :=
  match stack with
  | [] => some s
  | (node, position) :: rest =>
    match _ho : d.operandsAt node with
    | none => none
    | some operands =>
      if position = operands.length then search d (s.leave node) rest
      else
        match _hx : operands[position]? with
        | none => none
        | some x =>
          match _he : enter d x (s.record x ⟨node, position⟩) ((node, position + 1) :: rest) with
          | none => none
          | some (s, stack) => search d s stack
termination_by (s.unvisited, turns d stack)
decreasing_by
  · exact Prod.Lex.right _ (by simp [turns])
  · obtain hlt | ⟨rfl, rfl⟩ := enter_cases _he
    · exact Prod.Lex.left _ _ hlt
    · obtain ⟨hlt, -⟩ := List.getElem?_eq_some_iff.1 _hx
      exact Prod.Lex.right _ (by simp [turns, _ho]; omega)

theorem search_cons (d : Dag α) (s : Walk.State) (node : NodeId) (position : Nat)
    (rest : List Entered) :
    search d s ((node, position) :: rest) = (do
      let operands ← d.operandsAt node
      if position = operands.length then search d (s.leave node) rest
      else
        let x ← operands[position]?
        let (s, stack) ← enter d x (s.record x ⟨node, position⟩) ((node, position + 1) :: rest)
        search d s stack) := by
  rw [search]
  split
  · next ho => rw [ho]; rfl
  · next operands ho =>
    rw [ho]
    simp only [Option.bind_eq_bind, Option.bind_some]
    split
    · rfl
    · split
      · next hx => rw [hx]; rfl
      · next x hx =>
        rw [hx]
        simp only [Option.bind_some]
        split
        · next he => rw [he]; rfl
        · next he => rw [he]; rfl

/-- The walk of a root. The names of all variables are read to sort them. -/
def walk (d : Dag α) (root : NodeId) : Access Walk := do
  let (s, stack) ← enter d root (Walk.start d) []
  let s ← search d s stack
  let _ ← s.vars.toList.mapM d.nameAt
  return ⟨s.order, Walk.byName d s.vars.toList, s.uses⟩

end SharedExpr.Access

import SharedExpr.Access.Print
import SharedExpr.Proofs.Access.Evaluation

/-! The printing of expressions and of outlines comes to an end and makes no access out of
range. -/
namespace SharedExpr

theorem Ledger.exists_values {α : Type} (places : List (Option α)) :
    ∃ values : Std.HashMap NodeId α, ∀ id : NodeId, values[id]? = places[id]?.join := by
  induction places using List.reverseRecOn with
  | nil => exact ⟨∅, by simp⟩
  | append_singleton places place ih =>
    obtain ⟨values, hv⟩ := ih
    have hnew : ∀ id : NodeId, ((places ++ [place])[id]?).join =
        if places.length = id then place else places[id]?.join := by
      intro id
      rcases Nat.lt_trichotomy id places.length with hlt | rfl | hgt
      · rw [List.getElem?_append_left hlt, if_neg (Nat.ne_of_gt hlt)]
      · simp
      · rw [if_neg (Nat.ne_of_lt hgt), List.getElem?_eq_none (by simpa using hgt),
          List.getElem?_eq_none (Nat.le_of_lt hgt)]
    cases place with
    | none =>
      refine ⟨values, fun id => ?_⟩
      rw [hv, hnew]
      split
      · next h => rw [← h, List.getElem?_eq_none (Nat.le_refl _), Option.join_none]
      · rfl
    | some value =>
      refine ⟨values.insert places.length value, fun id => ?_⟩
      rw [Std.HashMap.getElem?_insert, hv, hnew]
      simp

theorem Ledger.exists_shows {α : Type} (l : Ledger α) : ∃ m : Memo α, l.Shows m := by
  obtain ⟨values, hv⟩ := exists_values l.places.toList
  exact ⟨⟨values, l.bundles⟩, fun id => by rw [get?, Memo.get?, hv, Array.getElem?_toList],
    fun _ => rfl⟩

variable {α : Type} [Scalar α] {d : Dag α}

namespace Outline

def Entry.Within (d : Dag α) : Entry → Prop
  | .node _ _ id | .again _ id _ | .derivative _ id => id < d.count
  | .primal _ => True

def Task.Within (d : Dag α) : Task → Prop
  | .line entry => entry.Within d
  | .visit _ _ id => id < d.count

theorem operandTasks_within {margin : Margin} {level : Nat} {operands : List NodeId}
    (hx : ∀ x ∈ operands, x < d.count) :
    ∀ task ∈ operandTasks margin level operands, task.Within d := by
  induction operands with
  | nil => exact nofun
  | cons x xs ih =>
    obtain ⟨hlt, hxs⟩ := List.forall_mem_cons.1 hx
    cases xs with
    | nil => exact List.forall_mem_singleton.2 hlt
    | cons y ys => exact List.forall_mem_cons.2 ⟨hlt, ih hxs⟩

theorem partialTasks_within {margin : Margin} {level : Nat} {parts : List (NodeId × NodeId)}
    (hp : ∀ part ∈ parts, part.1 < d.count ∧ part.2 < d.count) :
    ∀ task ∈ partialTasks margin level parts, task.Within d := by
  induction parts with
  | nil => exact nofun
  | cons part parts ih =>
    obtain ⟨⟨hx, hv⟩, hp⟩ := List.forall_mem_cons.1 hp
    cases parts with
    | nil => exact List.forall_mem_cons.2 ⟨hv, List.forall_mem_singleton.2 hx⟩
    | cons => exact List.forall_mem_cons.2 ⟨hv, List.forall_mem_cons.2 ⟨hx, ih hp⟩⟩

theorem tasks_within (h : d.Lawful) {margin : Margin} {level : Nat} {id : NodeId}
    (hid : id < d.count) : ∀ task ∈ tasks d margin level id, task.Within d := by
  obtain ⟨⟨label, operands⟩, hn⟩ := Dag.exists_node? hid
  rw [tasks, hn]
  cases h.admits hn with
  | lit | var => exact nofun
  | unary op hx => exact operandTasks_within (by simpa using hx)
  | binary op hx hy => exact operandTasks_within (by simpa using ⟨hx, hy⟩)
  | gradient hp hps hvs =>
    refine List.forall_mem_cons.2 ⟨trivial, List.forall_mem_cons.2 ⟨hp, ?_⟩⟩
    refine partialTasks_within fun part hm => ?_
    obtain ⟨hx, hv⟩ := List.of_mem_zip hm
    exact ⟨hps _ hx, Dag.lt_of_isSome_name? (hvs _ hv)⟩

variable {levels : Array (Option Nat)} {margin : Margin} {level : Nat} {id : NodeId}
  {rest : List Task}

theorem run_of_fresh (hl : levels[id]? = some none) :
    run d levels (.visit margin level id :: rest) = .node margin level id ::
      run d (levels.setIfInBounds id (some level)) (tasks d margin (level + 1) id ++ rest) := by
  rw [run]
  split
  · rfl
  · next h => cases hl.symm.trans h
  · next h => cases hl.symm.trans h

theorem run_of_met {first : Nat} (hl : levels[id]? = some (some first)) :
    run d levels (.visit margin level id :: rest) = .again margin id first ::
      run d levels rest := by
  rw [run]
  split
  · next h => cases hl.symm.trans h
  · next h =>
    cases hl.symm.trans h
    rfl
  · next h => cases hl.symm.trans h

end Outline

namespace Access

open Outline

/-- A gradient has its first part. -/
theorem tasks_eq (h : d.Lawful) {margin : Margin} {level : Nat} {id : NodeId}
    (hid : id < d.count) : tasks d margin level id = some (Outline.tasks d margin level id) := by
  obtain ⟨⟨label, operands⟩, hn⟩ := Dag.exists_node? hid
  rw [tasks, Outline.tasks, Dag.labelAt_of_node? hn, Dag.operandsAt_of_node? h.wellFormed hn, hn]
  cases h.admits hn <;> rfl

theorem outline_of_fresh {levels : Array (Option Nat)} {margin : Margin} {level : Nat}
    {id : NodeId} (hl : levels[id]? = some none) (rest : List Task) :
    outline d levels (.visit margin level id :: rest) = (do
      let hanging ← tasks d margin (level + 1) id
      let entries ← outline d (levels.setIfInBounds id (some level)) (hanging ++ rest)
      return .node margin level id :: entries) := by
  rw [outline]
  split
  · rfl
  · next h => cases hl.symm.trans h
  · next h => cases hl.symm.trans h

theorem outline_of_met {levels : Array (Option Nat)} {margin : Margin} {level first : Nat}
    {id : NodeId} (hl : levels[id]? = some (some first)) (rest : List Task) :
    outline d levels (.visit margin level id :: rest) = (do
      let entries ← outline d levels rest
      return .again margin id first :: entries) := by
  rw [outline]
  split
  · next h => cases hl.symm.trans h
  · next h =>
    cases hl.symm.trans h
    rfl
  · next h => cases hl.symm.trans h

/-- The tasks are worked off, as the levels are of the nodes of the graph. -/
theorem outline_eq (h : d.Lawful) {levels : Array (Option Nat)} {todo : List Task}
    (hs : levels.size = d.count) (ht : ∀ task ∈ todo, task.Within d) :
    outline d levels todo = some (Outline.run d levels todo) ∧
      ∀ entry ∈ Outline.run d levels todo, entry.Within d := by
  induction levels, todo using Outline.run.induct d with
  | case1 levels =>
    rw [outline, Outline.run]
    exact ⟨rfl, List.forall_mem_nil _⟩
  | case2 levels entry rest ih =>
    obtain ⟨hentry, hrest⟩ := List.forall_mem_cons.1 ht
    obtain ⟨heq, hall⟩ := ih hs hrest
    rw [outline, Outline.run, heq]
    exact ⟨rfl, List.forall_mem_cons.2 ⟨hentry, hall⟩⟩
  | case3 levels margin level id rest hfirst ih =>
    obtain ⟨hid, hrest⟩ := List.forall_mem_cons.1 ht
    obtain ⟨heq, hall⟩ := ih (Array.size_setIfInBounds.trans hs)
      (List.forall_mem_append.2 ⟨tasks_within h hid, hrest⟩)
    rw [outline_of_fresh hfirst, run_of_fresh hfirst, tasks_eq h hid]
    simp only [Option.bind_eq_bind, Option.bind_some, heq]
    exact ⟨rfl, List.forall_mem_cons.2 ⟨hid, hall⟩⟩
  | case4 levels margin level id rest first hfirst ih =>
    obtain ⟨hid, hrest⟩ := List.forall_mem_cons.1 ht
    obtain ⟨heq, hall⟩ := ih hs hrest
    rw [outline_of_met hfirst, run_of_met hfirst, heq]
    exact ⟨rfl, List.forall_mem_cons.2 ⟨hid, hall⟩⟩
  | case5 levels margin level id rest hfirst ih =>
    obtain ⟨hid, -⟩ := List.forall_mem_cons.1 ht
    exact absurd (Array.getElem?_eq_none_iff.1 hfirst) (Nat.not_le_of_lt (hs.symm ▸ hid))

variable [ScalarText α] {l : Ledger α} {m : Memo α} {id : NodeId}

/-- The recursion goes down to operands, which are older. -/
theorem display_eq (h : d.Lawful) (id : NodeId) : display d id = some (d.display id) := by
  by_cases hid : id < d.count
  · have hc : d.contains id = true := by simpa [Dag.contains] using hid
    obtain ⟨⟨label, operands⟩, hn⟩ := Dag.exists_node? hid
    have hlt : ∀ x ∈ operands, x < id := fun x hx =>
      h.wellFormed.operands_lt id x (Dag.operands_of_node? hn ▸ hx)
    have ih : ∀ x ∈ operands, (if x < id then display d x else none) = some (d.display x) := by
      intro x hx
      have hx := hlt x hx
      rw [if_pos hx]
      exact display_eq h x
    have hall := mapM_eq ih
    have heq : d.display id = label.infixText (operands.map d.display) :=
      Dag.unfold_eq d _ _ hn hlt
    rw [display, if_pos hc, Dag.labelAt_of_node? hn, Dag.operandsAt_of_node? h.wellFormed hn, heq]
    cases h.admits hn with
    | lit | var => rfl
    | @unary op x =>
      have hx := ih x (by simp)
      cases op <;> simp [hx, Label.infixText]
    | @binary op x y =>
      have hx := ih x (by simp)
      have hy := ih y (by simp)
      simp [hx, hy, Label.infixText]
    | gradient =>
      simp only [Option.bind_eq_bind, Option.bind_some, hall]
      rfl
  · have hc : ¬ d.contains id = true := by simpa [Dag.contains] using hid
    rw [display, if_neg hc, Dag.display, Dag.unfold, Dag.label?,
      Array.getElem?_eq_none (Nat.le_of_not_lt hid)]
    rfl
termination_by id

theorem outlineName_eq (hid : id < d.count) : outlineName d id = some (d.outlineName id) := by
  obtain ⟨label, hl, hl'⟩ := Dag.exists_labelAt hid
  rw [outlineName, Dag.outlineName, hl, hl']
  cases label <;> rfl

theorem operandText_eq (hs : l.Shows m) (hid : id < d.count) :
    operandText d l id = some (Outline.operandText d m id) := by
  rw [operandText, Outline.operandText, outlineName_eq hid, valueText, Outline.valueText,
    hs.get?_eq]
  rfl

theorem definitionText_eq (h : d.Lawful) (hs : l.Shows m) (hid : id < d.count) :
    definitionText d l id = some (Outline.definitionText d m id) := by
  obtain ⟨⟨label, operands⟩, hn⟩ := Dag.exists_node? hid
  rw [definitionText, Outline.definitionText, Dag.labelAt_of_node? hn,
    Dag.operandsAt_of_node? h.wellFormed hn, hn]
  cases h.admits hn with
  | lit | var | gradient => rfl
  | @unary op x hx =>
    have hx := operandText_eq hs hx
    cases op <;> simp [hx]
  | @binary op x y hx hy =>
    have hx := operandText_eq hs hx
    have hy := operandText_eq hs hy
    simp [hx, hy]

theorem entryText_eq (h : d.Lawful) (hs : l.Shows m) {entry : Entry} (he : entry.Within d) :
    entryText d l entry = some (entry.text d m) := by
  cases entry with
  | node margin level id =>
    simp only [entryText, operandText_eq hs he, definitionText_eq h hs he]
    rfl
  | again margin id level =>
    simp only [entryText, outlineName_eq he]
    rfl
  | primal margin => rfl
  | derivative margin var =>
    simp only [entryText, outlineName_eq he]
    rfl

theorem outlineText_eq (h : d.Lawful) (hs : l.Shows m) (root : NodeId) :
    outlineText d l root = some (d.outlineText m root) := by
  rw [outlineText, Dag.outlineText]
  split
  · next hroot =>
    have hroot : root < d.count := by simpa [Dag.contains] using hroot
    have hwithin : ∀ task ∈ [Outline.Task.visit ⟨"", .root⟩ 1 root], task.Within d :=
      List.forall_mem_singleton.2 hroot
    have hsize : (Array.replicate d.count (none : Option Nat)).size = d.count :=
      Array.size_replicate
    obtain ⟨heq, hall⟩ := outline_eq h hsize hwithin
    have hlines := mapM_eq fun entry hm => entryText_eq h hs (hall entry hm)
    simp only [outlineName_eq hroot, heq, hlines, Option.bind_eq_bind, Option.bind_some]
    rfl
  · rfl

end Access

end SharedExpr

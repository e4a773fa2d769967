import Mathlib.Data.List.Forall2
import SharedExpr.Proofs.Eval.Denotation

/-! The values of a node and of its parts at values for the variables by name. -/
namespace SharedExpr

variable {α : Type}

namespace Bindings

theorem exists_of_forall₂ {R : String → α → Prop} {names : List String} {values : List α}
    (h : List.Forall₂ R names values) {name : String} (hn : name ∈ names) :
    ∃ x, ofLists names values name = some x ∧ R name x := by
  induction h with
  | nil => cases hn
  | @cons n x names values hx _ ih =>
    by_cases he : name = n
    · subst he
      exact ⟨x, by simp [ofLists], hx⟩
    · obtain ⟨y, hy, hr⟩ := ih ((List.mem_cons.1 hn).resolve_left he)
      refine ⟨y, ?_, hr⟩
      rw [ofLists, List.zip_cons_cons, List.lookup_cons, beq_false_of_ne he]
      exact hy

end Bindings

variable [Scalar α]

namespace Dag

variable {d : Dag α} {root : NodeId} {values : List α}

def varNames (d : Dag α) (root : NodeId) : List String :=
  (d.freeVars root).filterMap d.name?

/-- The variables under a node take values in the order of their names, all others zero. -/
def assignmentAt (d : Dag α) (root : NodeId) (values : List α) (name : String) : α :=
  (Bindings.ofLists (d.varNames root) values name).getD Scalar.zero

/-- The nodes whose values a function hands back: the parts of a gradient, or else the node. -/
def resultNodes (d : Dag α) (root : NodeId) : List NodeId :=
  match d.bundle? root with
  | some parts => parts.primal :: parts.partials
  | none => [root]

/-- The values of the parts of a gradient or of another node, the variables under it taking the
given values in the order of their names. -/
def resultsAt (d : Dag α) (root : NodeId) (values : List α) : Except Fault (List α) := do
  let b ← d.bindingsAt root values
  if (d.bundle? root).isSome then d.evaluateGradient root b
  else return [← d.evaluate root b]

theorem length_resultNodes (d : Dag α) (root : NodeId) :
    (d.resultNodes root).length =
      if (d.bundle? root).isSome then (d.operands root).length else 1 := by
  rw [resultNodes]
  cases hb : d.bundle? root with
  | none => rfl
  | some parts =>
    rw [operands_of_node? (bundle?_eq_some_iff.1 hb)]
    rfl

theorem resultNodes_lt (h : d.Lawful) (hroot : root < d.count) :
    ∀ x ∈ d.resultNodes root, x < d.count := by
  intro x hx
  rw [resultNodes] at hx
  split at hx
  · next hb => exact h.wellFormed.lt_of_mem_operands (bundle?_eq_some_iff.1 hb) hx
  · exact List.mem_singleton.1 hx ▸ hroot

/-- The results of a root are under it, and there is no gradient under them unless there is one
under the root besides itself. -/
theorem gradientFree_resultNodes (h : d.Lawful) (hroot : root < d.count)
    (hg : ∀ id, d.Reaches root id → id ≠ root → (d.label? id).any Label.isGradient = false)
    {x : NodeId} (hx : x ∈ d.resultNodes root) :
    d.Reaches root x ∧ ∀ id, d.Reaches x id → (d.label? id).any Label.isGradient = false := by
  rw [resultNodes] at hx
  cases hb : d.bundle? root with
  | some parts =>
    rw [hb] at hx
    have hop : x ∈ d.operands root := (operands_of_node? (bundle?_eq_some_iff.1 hb)).symm ▸ hx
    have hlt := h.wellFormed.operands_lt root x hop
    exact ⟨.single hop, fun id hr => hg id (.head hop hr)
      (Nat.ne_of_lt (Nat.lt_of_le_of_lt (hr.le h.wellFormed) hlt))⟩
  | none =>
    rw [hb] at hx
    obtain rfl := List.mem_singleton.1 hx
    refine ⟨.refl, fun id hr => ?_⟩
    by_cases hid : id = x
    · subst hid
      obtain ⟨node, hn⟩ := exists_node? hroot
      rw [label?_of_node? hn]
      cases h.admits hn with
      | lit | var | unary | binary => rfl
      | gradient => simp [bundle?, hn] at hb
    · exact hg id hr hid

theorem varNames_spec (h : d.Lawful) (hroot : root < d.count) :
    (d.freeVars root).map d.name? = (d.varNames root).map some ∧
      (d.varNames root).Pairwise (· < ·) := by
  obtain ⟨names, hmap, hnames⟩ := freeVars_names h hroot
  have he : d.varNames root = names := by
    have hid := List.filterMap_map (f := d.name?) (g := id) (l := d.freeVars root)
    rw [hmap, List.filterMap_map] at hid
    exact hid.symm.trans List.filterMap_some
  exact he ▸ ⟨hmap, hnames⟩

theorem nodup_varNames (h : d.Lawful) (hroot : root < d.count) : (d.varNames root).Nodup :=
  (varNames_spec h hroot).2.imp fun hlt => ne_of_lt hlt

theorem length_varNames (h : d.Lawful) (hroot : root < d.count) :
    (d.varNames root).length = (d.freeVars root).length := by
  have hl := congrArg List.length (varNames_spec h hroot).1
  simpa using hl.symm

theorem mem_varNames (h : d.Lawful) (hroot : root < d.count) {v : NodeId} {name : String}
    (hv : d.Reaches root v) (hname : d.name? v = some name) : name ∈ d.varNames root :=
  List.mem_filterMap.2 ⟨v, (walk_covers h.wellFormed hroot).mem_freeVars_iff.2
    ⟨hv, Option.isSome_of_eq_some hname⟩, hname⟩

theorem agrees_ofLists (h : d.Lawful) (hroot : root < d.count)
    (hv : values.length = (d.varNames root).length) :
    (Bindings.ofLists (d.varNames root) values).Agrees d root (d.assignmentAt root values) := by
  intro v name hr hname
  have hall : List.Forall₂ (fun _ _ => True) (d.varNames root) values :=
    List.forall₂_iff_get.2 ⟨hv.symm, fun _ _ _ => trivial⟩
  obtain ⟨x, hx, -⟩ := Bindings.exists_of_forall₂ hall (mem_varNames h hroot hr hname)
  rw [assignmentAt, hx]
  rfl

theorem bindingsAt_of_eq (h : d.Lawful) (hroot : root < d.count)
    (hv : values.length = (d.varNames root).length) :
    d.bindingsAt root values = .ok (.ofLists (d.varNames root) values) := by
  rw [length_varNames h hroot] at hv
  rw [bindingsAt, check_of_lt hroot]
  simp [bind, Except.bind, pure, Except.pure, hv, varNames]

/-- With a value for each variable, evaluation answers the values of the node and of its parts. -/
theorem evaluateAt_eq (h : d.Lawful) (hroot : root < d.count)
    (hv : values.length = (d.varNames root).length) :
    d.evaluateAt root values = .ok (d.denote (d.assignmentAt root values) root) ∧
      d.resultsAt root values =
        .ok ((d.resultNodes root).map (d.denote (d.assignmentAt root values))) := by
  have hb := bindingsAt_of_eq h hroot hv
  have hagrees := agrees_ofLists h hroot hv
  constructor
  · rw [evaluateAt, hb]
    exact evaluate_eq h hroot hagrees
  · rw [resultsAt, hb, resultNodes]
    simp only [bind, Except.bind]
    cases hbundle : d.bundle? root with
    | none =>
      rw [evaluate_eq h hroot hagrees]
      rfl
    | some parts => exact evaluateGradient_eq h hroot hagrees hbundle

end Dag

end SharedExpr

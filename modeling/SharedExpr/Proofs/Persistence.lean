import Mathlib
import SharedExpr.Print.Dot
import SharedExpr.Print.Infix
import SharedExpr.Proofs.Gradient.Outcome
import SharedExpr.Proofs.Gradient.Signature
import SharedExpr.Proofs.Replay

/-! The number of a node keeps its meaning while the graph grows: all that is asked about the node
looks only at what is under it. -/
namespace SharedExpr

variable {α : Type} [Scalar α] {d e : Dag α} {root : NodeId}

namespace Dag

/-- New uses of a node come before the older ones, and are by new nodes. -/
theorem Grows.uses (hg : d.Grows e) (h : d.Lawful) (id : NodeId) :
    ∃ newer, e.uses id = newer ++ d.uses id ∧ ∀ use ∈ newer, ¬ use.consumer < d.count := by
  induction hg with
  | refl => exact ⟨[], rfl, by simp⟩
  | @intern d' node hg hn ih =>
    obtain ⟨newer, huses, hnewer⟩ := ih
    have hw := (hg.lawful h).wellFormed
    rcases intern_cases hw node with ⟨x, -, hi⟩ | ⟨-, hi⟩
    · rw [hi]
      exact ⟨newer, huses, hnewer⟩
    · rw [hi, uses_append hw hn.operand_lt, huses, ← List.append_assoc]
      refine ⟨_, rfl, fun use hu => ?_⟩
      rcases List.mem_append.1 hu with hu | hu
      · obtain ⟨slot, -, rfl⟩ := List.mem_map.1 (List.mem_reverse.1 hu)
        exact Nat.not_lt.2 (hg.extends_ h).count_le
      · exact hnewer use hu

namespace Extends

variable (he : d.Extends e)
include he

theorem checkBound (b : Bindings α) {vars : List NodeId} (hv : ∀ v ∈ vars, v < d.count) :
    e.checkBound b vars = d.checkBound b vars :=
  forM_congr fun v hm => by rw [he.name? (hv v hm)]

theorem evaluateNodes (b : Bindings α) {nodes : List NodeId} (hn : ∀ x ∈ nodes, x < d.count)
    (m : Memo α) : nodes.foldlM (e.evaluateNode b) m = nodes.foldlM (d.evaluateNode b) m := by
  induction nodes generalizing m with
  | nil => rfl
  | cons x nodes ih =>
    obtain ⟨hx, hxs⟩ := List.forall_mem_cons.1 hn
    have hnode : e.evaluateNode b m x = d.evaluateNode b m x := by
      rw [evaluateNode, evaluateNode, he.node? hx]
    rw [List.foldlM_cons, List.foldlM_cons, hnode]
    exact congrArg _ (funext fun m => ih hxs m)

variable (h : d.Lawful) (h' : e.Lawful) (hroot : root < d.count)
include h h' hroot

theorem evaluateAll (b : Bindings α) : e.evaluateAll root b = d.evaluateAll root b := by
  have horder := (walk_extends h.wellFormed h'.wellFormed he hroot).1
  have hvars : (e.walk root).freeVars = (d.walk root).freeVars := freeVars_extends h h' he hroot
  have hcov := walk_covers h.wellFormed hroot
  have hbound := he.checkBound b (hcov.freeVars_lt h.wellFormed hroot)
  rw [Dag.evaluateAll, Dag.evaluateAll, he.check hroot]
  simp only [horder, hvars, hbound, he.evaluateNodes b (hcov.order_lt h.wellFormed hroot)]

theorem evaluate (b : Bindings α) : e.evaluate root b = d.evaluate root b := by
  rw [Dag.evaluate, Dag.evaluate, he.evaluateAll h h' hroot]

theorem evaluateGradient (b : Bindings α) :
    e.evaluateGradient root b = d.evaluateGradient root b := by
  rw [Dag.evaluateGradient, Dag.evaluateGradient, he.evaluateAll h h' hroot]

theorem varNames : e.varNames root = d.varNames root := by
  have hcov := walk_covers h.wellFormed hroot
  rw [Dag.varNames, Dag.varNames, freeVars_extends h h' he hroot]
  exact List.filterMap_congr fun v hv => he.name? (hcov.freeVars_lt h.wellFormed hroot v hv)

theorem bindingsAt (values : List α) : e.bindingsAt root values = d.bindingsAt root values := by
  have hnames := he.varNames h h' hroot
  rw [Dag.varNames, Dag.varNames, freeVars_extends h h' he hroot] at hnames
  rw [Dag.bindingsAt, Dag.bindingsAt, he.check hroot]
  simp only [freeVars_extends h h' he hroot, hnames]

theorem evaluateAt (values : List α) : e.evaluateAt root values = d.evaluateAt root values := by
  rw [Dag.evaluateAt, Dag.evaluateAt, he.bindingsAt h h' hroot]
  exact congrArg _ (funext fun b => he.evaluate h h' hroot b)

variable [ScalarText α]

omit h h' in
theorem display (hw : d.WellFormed) : e.display root = d.display root :=
  he.unfold hw _ _ hroot

theorem drawing : e.drawing root = d.drawing root := by
  have hadd : ∀ s : Drawing.State, ∀ x ∈ (d.walk root).order.toList, s.add e x = s.add d x := by
    intro s x hx
    have hlt := (walk_covers h.wellFormed hroot).order_lt h.wellFormed hroot x hx
    rw [Drawing.State.add, Drawing.State.add, he.label? hlt, he.operands hlt]
  rw [Dag.drawing, Dag.drawing, (walk_extends h.wellFormed h'.wellFormed he hroot).1,
    ← Array.foldl_toList, ← Array.foldl_toList]
  exact congrArg _ (List.foldl_ext _ _ _ hadd)

end Extends

end Dag

namespace Lowering

variable [ScalarText α] (he : d.Extends e)
include he

theorem lowerAll_extends {nodes : List NodeId} (hn : ∀ x ∈ nodes, x < d.count) (s : Lowering) :
    lowerAll e nodes s = lowerAll d nodes s := by
  induction nodes generalizing s with
  | nil => rfl
  | cons x nodes ih =>
    obtain ⟨hx, hxs⟩ := List.forall_mem_cons.1 hn
    have hnode : lowerNode e s x = lowerNode d s x := by rw [lowerNode, lowerNode, he.node? hx]
    simp only [lowerAll, hnode, ih hxs]

variable (hw : d.WellFormed) (hw' : e.WellFormed)
include hw hw'

theorem lower_extends (hroot : root < d.count) (s : Lowering) :
    lower e root s = lower d root s := by
  rw [lower, lower, (Dag.walk_extends hw hw' he hroot).1]
  simp only [lowerAll_extends he ((Dag.walk_covers hw hroot).order_lt hw hroot)]

theorem lowerList_extends {nodes : List NodeId} (hn : ∀ x ∈ nodes, x < d.count) :
    lowerList e nodes = lowerList d nodes := by
  induction nodes with
  | nil => rfl
  | cons x nodes ih =>
    obtain ⟨hx, hxs⟩ := List.forall_mem_cons.1 hn
    have hfirst : lower e x = lower d x := funext fun s => lower_extends he hw hw' hx s
    rw [lowerList, lowerList, hfirst, ih hxs]

end Lowering

namespace Dag

theorem Extends.program [ScalarText α] (he : d.Extends e) (h : d.Lawful) (h' : e.Lawful)
    (hroot : root < d.count) (options : CodeOptions) :
    e.program root options = d.program root options := by
  have hbundle : e.bundle? root = d.bundle? root := by rw [bundle?, bundle?, he.node? hroot]
  have hvars : e.namedVars root = d.namedVars root := by
    have hcov := walk_covers h.wellFormed hroot
    rw [namedVars, namedVars, freeVars_extends h h' he hroot]
    exact List.filterMap_congr fun v hv => by
      rw [he.name? (hcov.freeVars_lt h.wellFormed hroot v hv)]
  have hresults : e.resultNodes root = d.resultNodes root := by
    rw [resultNodes, resultNodes, hbundle]
  rw [Lowering.program_eq hroot, Lowering.program_eq (he.lt_count hroot), hvars, hresults,
    Lowering.lowerList_extends he h.wellFormed h'.wellFormed (resultNodes_lt h hroot)]
  simp only [Lowering.complete, he.varNames h h' hroot, hbundle]

/-- What a graph says of a node, and what a later one does: the node, its uses but for those by new
nodes, and all that is computed from what is under it. -/
structure Persists [ScalarText α] (d e : Dag α) (id : NodeId) : Prop where
  node? : e.node? id = d.node? id
  uses : ∃ newer, e.uses id = newer ++ d.uses id ∧ ∀ use ∈ newer, ¬ use.consumer < d.count
  order : (e.walk id).order = (d.walk id).order
  freeVars : (e.walk id).freeVars = (d.walk id).freeVars
  usesOf : ∀ x, (e.walk id).usesOf x = (d.walk id).usesOf x
  evaluate : ∀ b, e.evaluate id b = d.evaluate id b
  evaluateGradient : ∀ b, e.evaluateGradient id b = d.evaluateGradient id b
  evaluateAt : ∀ values, e.evaluateAt id values = d.evaluateAt id values
  display : e.display id = d.display id
  drawing : e.drawing id = d.drawing id
  program : ∀ options, e.program id options = d.program id options

theorem persists_of_grows [ScalarText α] (hg : d.Grows e) (h : d.Lawful) {id : NodeId}
    (hid : id < d.count) : d.Persists e id := by
  have he := hg.extends_ h
  have h' := hg.lawful h
  obtain ⟨horder, huses⟩ := walk_extends h.wellFormed h'.wellFormed he hid
  exact {
    node? := he.node? hid
    uses := hg.uses h id
    order := horder
    freeVars := freeVars_extends h h' he hid
    usesOf := huses
    evaluate := he.evaluate h h' hid
    evaluateGradient := he.evaluateGradient h h' hid
    evaluateAt := he.evaluateAt h h' hid
    display := he.display hid h.wellFormed
    drawing := he.drawing h h' hid
    program := he.program h h' hid }

end Dag

/-- A misuse of a partial derivative is found before its seeds are added. -/
theorem derivative_misuse {consumer : NodeId} {position : Nat} {cause : Misuse}
    (hs : derivative consumer position d = (.error (.misuse cause), e)) : e = d := by
  rw [derivative] at hs
  split at hs
  · cases hs
  · split at hs
    split at hs <;> cases hs
  all_goals
    cases hs
    rfl

namespace Command

theorem attempt_eq_failure {steps : Attempt α NodeId} {fault : Fault}
    (hs : attempt steps d = (some (.failure fault), e)) :
    steps d = (Except.error fault, e) := by
  rw [attempt_apply] at hs
  rcases hr : (steps d : Except Fault NodeId × Dag α) with ⟨o, d₁⟩
  rw [hr] at hs
  cases o with
  | ok id => cases hs
  | error fault =>
    cases hs
    rfl

theorem map_node_ne_failure {steps : OptionT (Build α) NodeId} {fault : Fault} :
    (Outcome.node <$> steps : OptionT (Build α) Outcome) d ≠ (some (.failure fault), e) := by
  rw [map_apply]
  rcases (steps d : Option NodeId × Dag α) with ⟨o, d₁⟩
  cases o <;> exact nofun

/-- A misuse leaves the graph as it is, unless some of several adjoints were found before it. -/
theorem misuse_keeps (h : d.Lawful) {command : Command α}
    (hc : ∀ root start nodes, command ≠ .adjoints root start nodes) {cause : Misuse}
    (hrun : command.run d = (some (.failure (.misuse cause)), e)) : e = d := by
  cases command with
  | lit | var | apply | build => exact absurd hrun map_node_ne_failure
  | tryApply app =>
    have hs := attempt_eq_failure hrun
    rw [Application.tryBuild] at hs
    split at hs
    · cases hs
      rfl
    · cases hs
  | gradient parts =>
    have hs := attempt_eq_failure hrun
    rw [Dag.Bundle.build] at hs
    split at hs
    · cases hs
      rfl
    · cases hs
  | backward root =>
    have hs := attempt_eq_failure hrun
    rcases backward_cases h root with ⟨-, _, -, hb⟩ | ⟨-, _, _, -, -, hb⟩ | ⟨-, _, _, hb⟩
    · cases hs.symm.trans hb
      rfl
    · cases hs.symm.trans hb
    · cases hs.symm.trans hb
  | derivative consumer position =>
    rw [run] at hrun
    dsimp only at hrun
    split at hrun
    · exact derivative_misuse (attempt_eq_failure hrun)
    · cases hrun
  | adjoints root start nodes => exact absurd rfl (hc root start nodes)
  | reset => cases hrun

end Command

namespace Dag

/-- A node keeps its meaning until a reset: whatever operations a graph goes through, and whether
they succeed or fail, each of its nodes stays what it is, and so do the answers to all that is asked
about it. An operation that is a misuse leaves the graph as it is, unless it asked for several
adjoints. -/
theorem Reachable.persists [ScalarText α] {s : Dag α} (h : s.Reachable) :
    (∀ s', s.Becomes s' → ∀ id < s.count, s.Persists s' id) ∧
    ∀ (command : Command α) cause s', (∀ root start nodes, command ≠ .adjoints root start nodes) →
      command.run s = (some (.failure (.misuse cause)), s') → s' = s :=
  ⟨fun _ hs _ hid => persists_of_grows (hs.grows h.lawful) h.lawful hid,
    fun _ _ _ hc hrun => Command.misuse_keeps h.lawful hc hrun⟩

/-- The gradient of `x * y` adds nodes, after which `x * y` is still displayed and evaluated as
before; the gradient of the gradient adds nothing. -/
theorem product_persists : ∃ s' : Dag Double,
    (Command.backward 2).run product = (some (.node 5), s') ∧ ¬ s'.count = product.count ∧
      (∀ b, s'.evaluate 2 b = product.evaluate 2 b) ∧ s'.display 2 = "(x * y)" ∧
      (Command.backward 5).run s' = (some (.failure (.misuse (.alreadyGradient 5))), s') := by
  have ho : ((Command.backward 2).run product).1 = some (.node 5) := by cbv
  have hrun : (Command.backward 2).run product =
      (some (.node 5), ((Command.backward 2).run product).2) := Prod.ext ho rfl
  have hlater : product.Becomes ((Command.backward 2).run product).2 :=
    .single ⟨.backward 2, _, by simp, hrun⟩
  have hcount : (2 : NodeId) < product.count := by cbv
  have hpersists := reachable_product.persists.1 _ hlater 2 hcount
  have hagain : ((Command.backward 5).run ((Command.backward 2).run product).2).1 =
      some (.failure (.misuse (.alreadyGradient 5))) := by cbv
  have hkept := (reachable_product.next ho).persists.2 (.backward 5) (.alreadyGradient 5) _
    (by simp) (Prod.ext hagain rfl)
  refine ⟨_, hrun, by cbv, hpersists.evaluate, ?_, Prod.ext hagain hkept⟩
  rw [hpersists.display]
  cbv

end Dag

end SharedExpr

import Mathlib
import SharedExpr.Double.Basic
import SharedExpr.Proofs.Gradient.Replay
import SharedExpr.Proofs.Session

/-! A sequence of operations finds the same nodes again. -/
namespace SharedExpr

variable {α : Type} [Scalar α] {d d' e : Dag α}

namespace Command

/-- The numbers that an operation takes to be nodes of the graph. -/
def operands : Command α → List NodeId
  | lit _ | var _ | reset => []
  | apply app | tryApply app => app.operands
  | build e => e.refs
  | gradient parts => parts.primal :: parts.partials ++ parts.vars
  | backward root => [root]
  | derivative consumer _ => [consumer]
  | adjoints root start nodes => root :: start :: nodes

/-- An operation but a reset answers the same again, and adds nothing. -/
theorem replays_run (h : d.Lawful) {command : Command α} (hc : command ≠ .reset)
    (hx : ∀ x ∈ command.operands, x < d.count) : d.Replays command.run := by
  cases command with
  | lit value => exact (Dag.replays_lit h.wellFormed value).map fun id => some (Outcome.node id)
  | var name =>
    exact (Dag.replays_intern h.wellFormed ⟨.var name, []⟩).map fun id => some (Outcome.node id)
  | apply app =>
    refine ((Application.replays_build h hx).map fun id => some (Outcome.node id)).congr h
      ((Application.adds_build h hx).grows.extends_ h) fun e he hl => ?_
    exact (run_apply fun x hm => he.lt_count (hx x hm)).1
  | tryApply app =>
    refine ((Application.replays_build h hx).map fun id => some (Outcome.node id)).congr h
      ((Application.adds_build h hx).grows.extends_ h) fun e he hl => ?_
    exact (run_apply fun x hm => he.lt_count (hx x hm)).2
  | build ex =>
    refine ((Expr.replays_build h hx).map fun id => some (Outcome.node id)).congr h
      ((Expr.adds_build h hx).grows.extends_ h) fun e he hl => ?_
    rw [run, map_apply, Expr.build?_eq hl fun x hm => he.lt_count (hx x hm)]
    rfl
  | gradient parts => exact (Dag.Bundle.replays_build h hx).map fun r => some (Outcome.ofExcept r)
  | backward root =>
    have hroot := hx root (by simp [operands])
    exact (replays_backward h hroot).map fun r => some (Outcome.ofExcept r)
  | derivative consumer position =>
    have hc := hx consumer (by simp [operands])
    refine ((replays_derivative h hc position).map fun r => some (Outcome.ofExcept r)).congr h
      ((derivative_adds h consumer position).grows.extends_ h) fun e he hl => ?_
    have hce : e.contains consumer := by simpa [Dag.contains] using he.lt_count hc
    simp only [run, hce, if_true, attempt_apply]
  | adjoints root start nodes =>
    have hs := hx start (by simp [operands])
    have hwalk : ∀ e, d.Extends e → e.walk? start = some (e.walk start) := fun e he =>
      if_pos (by simpa [Dag.contains] using he.lt_count hs)
    intro e hext hl
    have he := ((run_grows h hc).extends_ h).trans hext
    rcases ha : Adjoints.adjoints nodes (.start root (d.walk start)) d with ⟨o, t, d₁⟩
    simp only [run, hwalk d (.refl d), ha] at hext
    cases o <;>
      simp only [run, hwalk d (.refl d), hwalk e he, ha,
        Adjoints.adjoints_start_replays h hs ha hext hl]
  | reset => exact absurd rfl hc

end Command

/-- Operations other than resets carried out one after the other, each on nodes that the graph has
by then, and what they answer. -/
inductive Dag.Performs : Dag α → List (Command α) → List Outcome → Dag α → Prop
  | nil (d : Dag α) : Performs d [] [] d
  | cons {d d₁ d' : Dag α} {command : Command α} {commands : List (Command α)} {outcome : Outcome}
    {outcomes : List Outcome} (hc : command ≠ .reset) (hx : command.operands.all d.contains)
    (hrun : command.run d = (some outcome, d₁)) (h : Performs d₁ commands outcomes d') :
    Performs d (command :: commands) (outcome :: outcomes) d'

/-- The graphs that a graph becomes by operations other than a reset. -/
def Dag.Becomes : Dag α → Dag α → Prop :=
  Relation.ReflTransGen fun d d' => ∃ (command : Command α) (outcome : Outcome),
    command ≠ .reset ∧ command.run d = (some outcome, d')

/-- The same operation, or the same sum or product with its operands swapped, unless both are
literals. -/
inductive Command.Swapped (d : Dag α) : Command α → Command α → Prop
  | refl (command : Command α) : Swapped d command command
  | apply {op : Binary} {x y : NodeId} (hop : op.commutes)
    (hl : ¬ (d.isLiteral x ∧ d.isLiteral y)) :
    Swapped d (.apply (.binary op x y)) (.apply (.binary op y x))
  | tryApply {op : Binary} {x y : NodeId} (hop : op.commutes)
    (hl : ¬ (d.isLiteral x ∧ d.isLiteral y)) :
    Swapped d (.tryApply (.binary op x y)) (.tryApply (.binary op y x))

namespace Command.Swapped

variable {command command' : Command α}

theorem ne_reset (h : Swapped d command command') (hc : command ≠ .reset) : command' ≠ .reset := by
  cases h with
  | refl => exact hc
  | apply | tryApply => exact nofun

theorem operands_iff (h : Swapped d command command') (x : NodeId) :
    x ∈ command'.operands ↔ x ∈ command.operands := by
  cases h with
  | refl => exact Iff.rfl
  | apply | tryApply => simp [operands, Application.operands, or_comm]

theorem mono (h : Swapped d command command') (he : d.Extends e)
    (hx : ∀ x ∈ command.operands, x < d.count) : Swapped e command command' := by
  cases h with
  | refl => exact .refl command
  | @apply op x y hop hl =>
    refine .apply hop ?_
    rwa [he.isLiteral (hx x (by simp [operands, Application.operands])),
      he.isLiteral (hx y (by simp [operands, Application.operands]))]
  | @tryApply op x y hop hl =>
    refine .tryApply hop ?_
    rwa [he.isLiteral (hx x (by simp [operands, Application.operands])),
      he.isLiteral (hx y (by simp [operands, Application.operands]))]

theorem run_eq (h : Swapped d command command') (hd : d.Lawful)
    (hx : ∀ x ∈ command.operands, x < d.count) : command'.run d = command.run d := by
  cases h with
  | refl => rfl
  | @apply op x y hop hl =>
    have hlx : x < d.count := hx x (by simp [operands, Application.operands])
    have hly : y < d.count := hx y (by simp [operands, Application.operands])
    rw [(run_apply (Application.operands_lt hlx hly)).1,
      (run_apply (Application.operands_lt hly hlx)).1,
      Application.build_swap hd hop hlx hly hl]
  | @tryApply op x y hop hl =>
    have hlx : x < d.count := hx x (by simp [operands, Application.operands])
    have hly : y < d.count := hx y (by simp [operands, Application.operands])
    rw [(run_apply (Application.operands_lt hlx hly)).2,
      (run_apply (Application.operands_lt hly hlx)).2,
      Application.build_swap hd hop hlx hly hl]

end Command.Swapped

namespace Dag

theorem Becomes.grows (h : d.Becomes d') (hd : d.Lawful) : d.Grows d' := by
  induction h with
  | refl => exact .refl d
  | tail _ hrun ih =>
    obtain ⟨command, outcome, hc, hrun⟩ := hrun
    have hg := Command.run_grows (ih.lawful hd) hc
    rw [hrun] at hg
    exact ih.trans hg

theorem Performs.grows {commands : List (Command α)} {outcomes : List Outcome}
    (h : d.Performs commands outcomes d') (hd : d.Lawful) : d.Grows d' := by
  induction h with
  | nil d => exact .refl d
  | cons hc _ hrun _ ih =>
    have hg := Command.run_grows hd hc
    rw [hrun] at hg
    exact hg.trans (ih (hg.lawful hd))

/-- Each operation finds its nodes in the graph that all of them led to, and so in a later one. -/
theorem Performs.replays {commands commands' : List (Command α)} {outcomes : List Outcome}
    (h : d.Performs commands outcomes d') (hd : d.Lawful) (he : d'.Extends e) (hl : e.Lawful)
    (hs : List.Forall₂ (Command.Swapped d') commands commands') :
    e.Performs commands' outcomes e := by
  induction h generalizing commands' with
  | nil =>
    cases hs
    exact .nil e
  | @cons d d₁ d' command commands outcome outcomes hc hx hrun h ih =>
    obtain - | @⟨_, command', _, _, hswap, hs⟩ := hs
    have hx : ∀ x ∈ command.operands, x < d.count := by simpa [contains] using hx
    have hg := Command.run_grows hd hc
    have hr := Command.replays_run hd hc hx e
    rw [hrun] at hg hr
    have hd₁ := hg.lawful hd
    have he₁ := (h.grows hd₁).extends_ hd₁
    have hlt : ∀ x ∈ command.operands, x < d'.count := fun x hm =>
      ((hg.extends_ hd).trans he₁).lt_count (hx x hm)
    have hlte : ∀ x ∈ command.operands, x < e.count := fun x hm => he.lt_count (hlt x hm)
    have hall : command'.operands.all e.contains := by
      simpa [contains, hswap.operands_iff] using hlte
    refine .cons (hswap.ne_reset hc) hall ?_ (ih hd₁ he hs)
    rw [(hswap.mono he hlt).run_eq hl hlte]
    exact hr (he₁.trans he) hl

/-- A sequence of operations finds the same nodes again, and meets the same faults, in every graph
that the one it led to has become: the answers are the same, and nothing is added. So it is when the
operands of sums and products are swapped, unless both are literals. -/
theorem Reachable.performs_again {s s₁ s₂ : Dag α} (h : s.Reachable)
    {commands : List (Command α)} {outcomes : List Outcome}
    (hrun : s.Performs commands outcomes s₁) (hlater : s₁.Becomes s₂) :
    s₂.Performs commands outcomes s₂ ∧
      ∀ commands', List.Forall₂ (Command.Swapped s₁) commands commands' →
        s₂.Performs commands' outcomes s₂ := by
  have hd₁ := (hrun.grows h.lawful).lawful h.lawful
  have hg := hlater.grows hd₁
  have hall : ∀ commands', List.Forall₂ (Command.Swapped s₁) commands commands' →
      s₂.Performs commands' outcomes s₂ := fun _ hs =>
    hrun.replays h.lawful (hg.extends_ hd₁) (hg.lawful hd₁) hs
  exact ⟨hall commands (List.forall₂_same.2 fun command _ => .refl command), hall⟩

/-- A product, its gradient and what is no derivative are the same after the sine of the product was
added, and when the variables are multiplied the other way round. -/
theorem product_performs_again : ∃ s₁ s₂ : Dag Double,
    empty.Performs [.var "x", .var "y", .apply (.binary .mul 0 1), .backward 2, .derivative 0 0]
      [.node 0, .node 1, .node 2, .node 5, .failure (.misuse (.leafDerivative 0))] s₁ ∧
    (Command.apply (.unary .sin 2)).run s₁ = (some (.node 6), s₂) ∧
    s₂.Performs [.var "x", .var "y", .apply (.binary .mul 1 0), .backward 2, .derivative 0 0]
      [.node 0, .node 1, .node 2, .node 5, .failure (.misuse (.leafDerivative 0))] s₂ := by
  have hrun : ∃ s₁ : Dag Double, empty.Performs
      [.var "x", .var "y", .apply (.binary .mul 0 1), .backward 2, .derivative 0 0]
      [.node 0, .node 1, .node 2, .node 5, .failure (.misuse (.leafDerivative 0))] s₁ ∧
      s₁.isLiteral 0 = false ∧ ((Command.apply (.unary .sin 2)).run s₁).1 = some (.node 6) := by
    refine ⟨_, .cons (by simp) ?_ (Prod.ext ?_ rfl) <| .cons (by simp) ?_ (Prod.ext ?_ rfl) <|
      .cons (by simp) ?_ (Prod.ext ?_ rfl) <| .cons (by simp) ?_ (Prod.ext ?_ rfl) <|
      .cons (by simp) ?_ (Prod.ext ?_ rfl) <| .nil _, ?_, ?_⟩
    all_goals cbv
  obtain ⟨s₁, hrun, hx, hsin⟩ := hrun
  have hlater : s₁.Becomes _ := .single ⟨.apply (.unary .sin 2), _, by simp, Prod.ext hsin rfl⟩
  refine ⟨s₁, _, hrun, Prod.ext hsin rfl, (Reachable.empty.performs_again hrun hlater).2 _ ?_⟩
  refine .cons (.refl _) <| .cons (.refl _) <| .cons ?_ <| .cons (.refl _) <| .cons (.refl _) .nil
  exact .apply rfl (by simp [hx])

end Dag

end SharedExpr

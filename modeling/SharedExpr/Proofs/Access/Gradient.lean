import SharedExpr.Access.Gradient
import SharedExpr.Proofs.Access.Rules
import SharedExpr.Proofs.Access.Walk
import SharedExpr.Proofs.Gradient.Termination

/-! Differentiation comes to an end and makes no access out of range. -/
namespace SharedExpr

variable {α : Type} [Scalar α] {d : Dag α}

theorem Dag.checkBundle_eq {parts : Bundle} (hlen : parts.partials.length = parts.vars.length) :
    d.checkBundle parts =
      ((parts.primal :: parts.partials).forM d.check >>= fun _ =>
        parts.vars.forM d.checkVariable) := by
  have hne : ¬ parts.partials.length ≠ parts.vars.length := fun h => h hlen
  rw [checkBundle, if_neg hne]
  show (d.check parts.primal >>= fun _ => parts.partials.forM d.check >>= fun _ => _) =
    ((d.check parts.primal >>= fun _ => parts.partials.forM d.check) >>= fun _ => _)
  cases d.check parts.primal <;> rfl

namespace Access

theorem checkVariables_eq (vars : List NodeId) :
    gradient.checkVariables d vars = some (vars.forM d.checkVariable) := by
  induction vars with
  | nil => rfl
  | cons var vars ih =>
    show _ = some (d.checkVariable var >>= fun _ => vars.forM d.checkVariable)
    rw [gradient.checkVariables, Dag.checkVariable]
    by_cases hvar : var < d.count
    · rw [Dag.check_of_lt hvar, Dag.nameAt_eq hvar, ih]
      cases d.name? var <;> rfl
    · rw [Dag.check_of_not_lt hvar]
      rfl

theorem gradient_eq (h : d.WellFormed) (parts : Dag.Bundle) :
    gradient parts d = some (parts.build d) := by
  rw [gradient, Dag.Bundle.build]
  by_cases hlen : parts.partials.length = parts.vars.length
  · have hne : ¬ parts.partials.length ≠ parts.vars.length := fun h => h hlen
    rw [if_neg hne, Dag.checkBundle_eq hlen]
    cases hc : (parts.primal :: parts.partials).forM d.check with
    | error fault => rfl
    | ok =>
      have hnode : d.internAt parts.node = some (d.intern parts.node) :=
        Dag.internAt_eq h fun x hm => Dag.lt_of_check (Dag.forM_eq_ok_iff.1 hc x hm)
      dsimp only
      rw [checkVariables_eq, hnode]
      cases hv : parts.vars.forM d.checkVariable with
      | error fault => rfl
      | ok => rfl
  · rw [if_pos hlen, Dag.checkBundle, if_pos hlen]
    rfl

/-- An operator has its operands, and its derivative is built from nodes. -/
theorem derivative_eq (h : d.Lawful) {consumer : NodeId} (hc : consumer < d.count)
    (position : Nat) :
    derivative consumer position d = some (SharedExpr.derivative consumer position d) := by
  obtain ⟨⟨label, operands⟩, hn⟩ := Dag.exists_node? hc
  rw [derivative, SharedExpr.derivative, Dag.labelAt_of_node? hn,
    Dag.operandsAt_of_node? h.wellFormed hn, hn]
  cases h.admits hn with
  | lit | var | gradient => rfl
  | @unary op x hx =>
    have hd : Derives d consumer position (op.derivative consumer x) d := .unary hn
    have hb := build_eq h (hd.refs_lt h)
    simp only [Option.bind_eq_bind, Option.bind_some, List.getElem?_cons_zero, hb]
    rfl
  | @binary op x y hx hy =>
    have hseeds := operandSeeds_adds h (position == 0)
    rcases hs : operandSeeds (position == 0) d with ⟨⟨dx, dy⟩, d₁⟩
    rw [hs] at hseeds
    have hy₁ := (hseeds.grows.extends_ h).lt_count hy
    simp only [Option.bind_eq_bind, Option.bind_some, Dag.isLiteralAt_eq hy₁]
    cases he : (op.derivative? (d₁.isLiteral y) x y dx dy (position == 0) : Option (Expr α)) with
    | none => rfl
    | some e =>
      have hb := build_eq (hseeds.grows.lawful h) ((Derives.binary hn hs he).refs_lt h)
      simp only [hb]
      rfl

open Adjoints (Frame Sums Stacked step)

variable {t : Adjoints}

/-- A turn of the loop is a step of the summation. -/
theorem sum_cons (turns : Nat) (h : d.Lawful) {top : Frame} {rest : List Frame}
    (hs : Sums d (top :: rest) t d) (hc : ∀ use ∈ top.pending, use.consumer < d.count) :
    sum (turns + 1) (top :: rest) t d =
      match step top rest t d with
      | (.ok stack, t, d) => sum turns stack t d
      | (.error fault, t, d) => some (.error fault, t, d) := by
  rw [sum, step]
  cases hp : top.pending with
  | nil => rfl
  | cons use pending =>
    dsimp only
    rcases hk : t.known? use.consumer d with ⟨weight, t₁, d₁⟩
    cases weight with
    | none => rfl
    | some weight =>
      obtain ⟨hka, -⟩ := Adjoints.known?_adds h hs.within use.consumer
      rw [hk] at hka
      have hc₁ := (hka.grows.extends_ h).lt_count (hc use (hp ▸ List.mem_cons_self))
      simp only [Option.bind_eq_bind, derivative_eq (hka.grows.lawful h) hc₁, Option.bind_some]
      rcases hv : (SharedExpr.derivative use.consumer use.position d₁ : Except Fault NodeId × Dag α)
        with ⟨slope, d₂⟩
      cases slope with
      | error fault => rfl
      | ok slope =>
        have hw := Adjoints.weighed h hs.within (hs.sum_lt top List.mem_cons_self) hk hv
        have hd₂ := hw.grows.lawful h
        have hx : ∀ x ∈ (Application.binary .mul weight slope).operands, x < d₂.count :=
          Application.operands_lt hw.weight_lt hw.slope_lt
        have hterm := Application.adds_build hd₂ hx
        have hx' : ∀ x ∈ (Application.binary .add top.sum
            ((Application.binary .mul weight slope).build d₂).1).operands,
            x < ((Application.binary .mul weight slope).build d₂).2.count :=
          Application.operands_lt ((hterm.grows.extends_ hd₂).lt_count hw.sum_lt) (hterm.lt _ rfl)
        simp only [apply_eq hd₂ hx, Option.bind_some, apply_eq (hterm.grows.lawful hd₂) hx']
        rfl

/-- With more turns than a stack of summations costs it is worked off. -/
theorem sum_eq {turns : Nat} {stack : List Frame} (hc : t.cost stack < turns) (h : d.Lawful)
    (hs : Sums d stack t d) (hw : t.walk.Climbs) (hst : Stacked t.walk stack)
    (hsize : t.walk.uses.size ≤ d.count) :
    sum turns stack t d = some (Adjoints.run turns stack t d) := by
  induction turns generalizing stack t d with
  | zero => exact absurd hc (Nat.not_lt_zero _)
  | succ turns ih =>
    cases stack with
    | nil => rfl
    | cons top rest =>
      have hlt : ∀ use ∈ top.pending, use.consumer < d.count := fun use hu =>
        Nat.lt_of_lt_of_le (hst.climbs top List.mem_cons_self use hu).2 hsize
      rw [sum_cons turns h hs hlt, Adjoints.run_succ_cons]
      rcases hstep : step top rest t d with ⟨o, t₁, d₁⟩
      cases o with
      | error fault => rfl
      | ok stack =>
        have hcases := Adjoints.step_cases hstep
        have hcost := hcases.cost_lt hst
        have hs₁ := hs.step_ok h hstep
        have hwalk := (Adjoints.keeps_step hstep).walk_eq
        exact ih (by omega) (hs₁.grows.lawful h) hs₁.self (hwalk ▸ hw) (hst.step hw hcases)
          (hwalk ▸ Nat.le_trans hsize (hs₁.grows.extends_ h).count_le)

theorem adjoint_eq (h : d.Lawful) (ht : t.Within d) (hw : t.walk.Climbs)
    (hsize : t.walk.uses.size ≤ d.count) (node : NodeId) :
    adjoint t node d = some (t.adjoint node d) := by
  rw [adjoint, Adjoints.adjoint]
  rcases hk : t.known? node d with ⟨a, t₁, d₁⟩
  cases a with
  | some a => rfl
  | none =>
    obtain ⟨hm, hne, rfl, rfl⟩ := Adjoints.known?_eq_none hk
    have hs := Adjoints.sums_frame h (.refl d₁) ht node
    have hcost : t₁.cost [(t₁.frame node d₁).1] < t₁.budget := Adjoints.cost_lt_budget hm _
    have hsum := sum_eq hcost (hs.grows.lawful h) hs.self hw (Adjoints.stacked_frame hw node d₁)
      (Nat.le_trans hsize (hs.grows.extends_ h).count_le)
    dsimp only
    rw [hsum]
    rcases Adjoints.run t₁.budget [(t₁.frame node d₁).1] t₁ (t₁.frame node d₁).2 with ⟨o, t₂, d₂⟩
    cases o with
    | error fault => rfl
    | ok =>
      simp only [Option.bind_eq_bind, Option.bind_some]
      cases t₂.memo[node]? <;> rfl

theorem adjoints_eq (h : d.Lawful) (ht : t.Within d) (hw : t.walk.Climbs)
    (hsize : t.walk.uses.size ≤ d.count) (nodes : List NodeId) :
    adjoints nodes t d = some (Adjoints.adjoints nodes t d) := by
  induction nodes generalizing t d with
  | nil => rfl
  | cons node nodes ih =>
    obtain ⟨ha, ht₁⟩ := Adjoints.adjoint_adds h ht node
    have hkeeps := (Adjoints.finds_adjoint hw node d).keeps
    rw [adjoints, Adjoints.adjoints, adjoint_eq h ht hw hsize]
    rcases hr : t.adjoint node d with ⟨o, t₁, d₁⟩
    rw [hr] at ha ht₁ hkeeps
    cases o with
    | error fault => rfl
    | ok first =>
      have hle := Nat.le_trans hsize (ha.grows.extends_ h).count_le
      simp only [Option.bind_eq_bind, Option.bind_some,
        ih (ha.grows.lawful h) ht₁ (hkeeps.walk_eq ▸ hw) (hkeeps.walk_eq ▸ hle)]
      rfl

/-- Differentiation comes to an end and makes no access out of range, whatever the root. -/
theorem backward_eq (h : d.Lawful) (root : NodeId) :
    backward root d = some (SharedExpr.backward root d) := by
  by_cases hroot : root < d.count
  · have hcov := Dag.walk_covers h.wellFormed hroot
    have horder : (d.walk root).order.toList.mapM d.isGradientAt =
        some ((d.walk root).order.toList.map fun id => (d.label? id).any Label.isGradient) :=
      mapM_eq fun id hid => Dag.isGradientAt_eq (hcov.order_lt h.wellFormed hroot id hid)
    have hany : (((d.walk root).order.toList.map fun id =>
        (d.label? id).any Label.isGradient).any id) =
        (d.walk root).order.any fun id => (d.label? id).any Label.isGradient := by
      rw [List.any_map, ← Array.any_toList]
      rfl
    rw [backward, SharedExpr.backward, Dag.checkRoot, Dag.check_of_lt hroot]
    simp only [Dag.isGradientAt_eq hroot, walk_eq h.wellFormed hroot, horder, hany,
      Option.bind_some, bind, Except.bind]
    by_cases hr : (d.label? root).any Label.isGradient
    · rw [if_pos hr, if_pos hr]
      rfl
    · rw [if_neg hr, if_neg hr]
      by_cases hg : (d.walk root).order.any fun id => (d.label? id).any Label.isGradient
      · rw [if_pos hg, if_pos hg]
        rfl
      · have ht := Adjoints.within_start root (d.walk root) d
        have hadds := Adjoints.adjoints_adds h ht (d.walk root).freeVars
        rw [if_neg hg, if_neg hg, adjoints_eq h ht (hcov.climbs h.wellFormed hroot)
          (Nat.le_of_eq hcov.uses_size)]
        simp only [Option.bind_some, pure, Except.pure]
        rcases ha : Adjoints.adjoints (d.walk root).freeVars (.start root (d.walk root)) d
          with ⟨o, t, d₁⟩
        rw [ha] at hadds
        cases o with
        | error fault => rfl
        | ok partials => exact gradient_eq (hadds.grows.lawful h).wellFormed _
  · rw [backward, SharedExpr.backward, Dag.checkRoot, Dag.check_of_not_lt hroot]
    rfl

end Access

end SharedExpr

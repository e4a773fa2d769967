import Mathlib
import SharedExpr.Double.Basic
import SharedExpr.Proofs.Access.Gradient
import SharedExpr.Proofs.Gradient.Support
import SharedExpr.Proofs.Gradient.Termination
import SharedExpr.Proofs.Session

/-! What becomes of the differentiation of a root: a gradient, a power that has no derivative, or a
misuse, and nothing else. -/
namespace SharedExpr

variable {α : Type} [Scalar α]

namespace Dag

/-- A root that is no node of the graph, or has a gradient under it. -/
def Misused (d : Dag α) (root : NodeId) : Prop :=
  ¬ root < d.count ∨ ∃ id, d.Reaches root id ∧ (d.label? id).any Label.isGradient

/-- A power with an exponent that is not a literal. -/
def OpenPower (d : Dag α) (id : NodeId) : Prop :=
  ∃ x y, d.node? id = some ⟨.binary .pow, [x, y]⟩ ∧ d.isLiteral y = false

variable {d : Dag α} {root : NodeId}

theorem not_misused (hroot : root < d.count)
    (hg : ∀ id, d.Reaches root id → (d.label? id).any Label.isGradient = false) :
    ¬ d.Misused root := by
  rintro (hlt | ⟨id, hr, hid⟩)
  · exact hlt hroot
  · rw [hg id hr] at hid
    cases hid

theorem openPower_iff {id x y : NodeId} {op : Binary}
    (hn : d.node? id = some ⟨.binary op, [x, y]⟩) :
    d.OpenPower id ↔ op = .pow ∧ d.isLiteral y = false := by
  constructor
  · rintro ⟨a, b, hn', hl⟩
    cases hn.symm.trans hn'
    exact ⟨rfl, hl⟩
  · rintro ⟨rfl, hl⟩
    exact ⟨x, y, hn, hl⟩

theorem OpenPower.not_gradient {id : NodeId} (h : d.OpenPower id) :
    (d.label? id).any Label.isGradient = false := by
  obtain ⟨x, y, hn, -⟩ := h
  rw [label?_of_node? hn]
  rfl

theorem checkRoot_cases (hw : d.WellFormed) (root : NodeId) :
    (d.Misused root ∧
      ∃ cause ∈ [Misuse.foreign root, .alreadyGradient root, .containsGradient root],
        d.checkRoot root = .error (.misuse cause)) ∨
    (¬ d.Misused root ∧ d.checkRoot root = .ok ()) := by
  rw [checkRoot]
  by_cases hroot : root < d.count
  · have hcov := walk_covers hw hroot
    rw [check_of_lt hroot]
    by_cases hr : (d.label? root).any Label.isGradient
    · refine Or.inl ⟨Or.inr ⟨root, .refl, hr⟩, .alreadyGradient root, by simp, ?_⟩
      simp [hr, bind, Except.bind, throw, throwThe, MonadExceptOf.throw]
    · by_cases ha : (d.walk root).order.any fun id => (d.label? id).any Label.isGradient
      · obtain ⟨id, hid, hg⟩ := Array.any_eq_true'.1 ha
        have hreach := (hcov.mem_order_iff id).1 (Array.mem_toList_iff.2 hid)
        refine Or.inl ⟨Or.inr ⟨id, hreach, hg⟩, .containsGradient root, by simp, ?_⟩
        simp [hr, ha, bind, Except.bind, throw, throwThe, MonadExceptOf.throw]
      · refine Or.inr ⟨not_misused hroot fun id hreach => ?_, ?_⟩
        · by_contra hg
          refine ha (Array.any_eq_true'.2 ⟨id, ?_, by simpa using hg⟩)
          exact Array.mem_toList_iff.1 ((hcov.mem_order_iff id).2 hreach)
        · simp [hr, ha, bind, Except.bind, pure, Except.pure]
  · refine Or.inl ⟨Or.inl hroot, .foreign root, by simp, ?_⟩
    rw [check_of_not_lt hroot]
    rfl

end Dag

theorem Binary.derivative?_eq_none_iff {op : Binary} {literalExponent first : Bool}
    {x y dx dy : NodeId} :
    (op.derivative? literalExponent x y dx dy first : Option (Expr α)) = none ↔
      op = .pow ∧ first = false ∧ literalExponent = false := by
  cases op with
  | add | sub | mul | div => simp [derivative?]
  | pow => cases first <;> simp [derivative?]

/-- What becomes of the derivative of a node along one of its operands: a gradient has none and is
a misuse, nor has a power along an exponent that is not a literal; any other node has one. -/
theorem derivative_outcome {d : Dag α} (h : d.Lawful) {consumer x : NodeId} {position : Nat}
    (hx : (d.operands consumer)[position]? = some x) :
    ((d.label? consumer).any Label.isGradient = true ∧
      derivative consumer position d = (.error (.misuse (.gradientDerivative consumer)), d)) ∨
    (d.OpenPower consumer ∧ position = 1 ∧ ∃ d', derivative consumer position d =
      (.error (.unsupportedDerivative consumer exponentReason), d')) ∨
    ((d.label? consumer).any Label.isGradient = false ∧ ¬ (d.OpenPower consumer ∧ position = 1) ∧
      ∃ slope d', derivative consumer position d = (.ok slope, d')) := by
  obtain ⟨⟨label, operands⟩, hn⟩ := Dag.exists_node? (h.wellFormed.lt_of_operand hx)
  rw [Dag.operands_of_node? hn] at hx
  rw [Dag.label?_of_node? hn, derivative, hn]
  cases h.admits hn with
  | lit | var => cases hx
  | gradient => exact Or.inl ⟨rfl, rfl⟩
  | @unary op a =>
    refine Or.inr (Or.inr ⟨rfl, ?_, _, _, rfl⟩)
    rintro ⟨⟨x, y, hn', -⟩, -⟩
    cases hn.symm.trans hn'
  | @binary op a b ha hb hl =>
    have hseeds := (operandSeeds_adds h (position == 0)).grows
    rcases hr : operandSeeds (position == 0) d with ⟨⟨dx, dy⟩, d₁⟩
    rw [hr] at hseeds
    have hposition : position = 1 ↔ (position == 0) = false := by
      have hlt : position < 2 := (List.getElem?_eq_some_iff.1 hx).1
      rw [beq_eq_false_iff_ne]
      omega
    -- The exponent is looked at once the seeds are there, which leaves it what it was.
    have hnone : (op.derivative? (d₁.isLiteral b) a b dx dy (position == 0) : Option (Expr α)) =
        none ↔ d.OpenPower consumer ∧ position = 1 := by
      rw [Binary.derivative?_eq_none_iff, (hseeds.extends_ h).isLiteral hb, Dag.openPower_iff hn,
        hposition, and_assoc, and_comm (a := d.isLiteral b = false)]
    dsimp only
    cases he : (op.derivative? (d₁.isLiteral b) a b dx dy (position == 0) :
      Option (Expr α)) with
    | none =>
      obtain ⟨hpower, hp⟩ := hnone.1 he
      exact Or.inr (Or.inl ⟨hpower, hp, d₁, rfl⟩)
    | some e =>
      have hp : ¬ (d.OpenPower consumer ∧ position = 1) := by
        rw [← hnone, he]
        exact Option.some_ne_none e
      exact Or.inr (Or.inr ⟨rfl, hp, _, _, rfl⟩)

theorem derivative_error {d d' : Dag α} (h : d.Lawful) {use : Use} {x : NodeId}
    (hx : (d.operands use.consumer)[use.position]? = some x)
    (hg : (d.label? use.consumer).any Label.isGradient = false) {fault : Fault}
    (hs : derivative use.consumer use.position d = (.error fault, d')) :
    d.OpenPower use.consumer ∧ fault = .unsupportedDerivative use.consumer exponentReason := by
  rcases derivative_outcome h hx with ⟨hgradient, -⟩ | ⟨hpower, -, d₁, he⟩ | ⟨-, -, slope, d₁, he⟩
  · rw [hg] at hgradient
    cases hgradient
  · cases hs.symm.trans he
    exact ⟨hpower, rfl⟩
  · cases hs.symm.trans he

namespace Adjoints

variable {d₀ d d' : Dag α} {root : NodeId} {t t' : Adjoints} {stack : List Frame}

/-- What is pending of the summations on a stack are uses that the walk has met. -/
def Pending (w : Walk) (stack : List Frame) : Prop :=
  ∀ frame ∈ stack, ∀ use ∈ frame.pending, use ∈ (w.usesOf frame.node).toList

theorem Pending.step {top : Frame} {rest : List Frame} (hp : Pending t.walk (top :: rest))
    (h : Step top rest t d stack t' d') : Pending t'.walk stack := by
  have hrest := fun frame hf => hp frame (List.mem_cons_of_mem _ hf)
  cases h with
  | finish => exact hrest
  | descend => exact List.forall_mem_cons.2 ⟨fun use hu => hu, hp⟩
  | add hpending hk =>
    rw [(keeps_known? hk).walk_eq]
    refine List.forall_mem_cons.2 ⟨fun use hu => ?_, hrest⟩
    exact hp top List.mem_cons_self use (hpending ▸ List.mem_cons_of_mem _ hu)

/-- A fault is that of a power under the root. -/
def Unsupported (d : Dag α) (root : NodeId) (fault : Fault) : Prop :=
  ∃ id, d.Reaches root id ∧ d.OpenPower id ∧ fault = .unsupportedDerivative id exponentReason

variable (h₀ : d₀.Lawful) (hroot : root < d₀.count)
  (hg : ∀ id, d₀.Reaches root id → (d₀.label? id).any Label.isGradient = false)
include h₀ hroot hg

theorem Runs.unsupported {r : Except Fault Unit × Adjoints × Dag α} (h : Runs stack t d r)
    (hs : Sums d₀ stack t d) (hw : t.walk = d₀.walk root) (hp : Pending t.walk stack)
    {fault : Fault} (hr : r.1 = .error fault) : Unsupported d₀ root fault := by
  induction h with
  | done => cases hr
  | @fail top rest t t' d d' fault' hstep =>
    obtain rfl := Except.error.inj hr
    obtain ⟨use, pending, weight, d₁, hpending, hk, hv⟩ := step_error hstep
    have huse := hp top List.mem_cons_self use (hpending ▸ List.mem_cons_self)
    rw [hw] at huse
    obtain ⟨hreach, hx⟩ := (Dag.walk_covers h₀.wellFormed hroot).mem_usesOf_iff.1 huse
    have hc := hreach.lt_count h₀.wellFormed hroot
    have hka := (known?_adds (hs.grows.lawful h₀) hs.within use.consumer).1.grows
    rw [hk] at hka
    have hgrows := hs.grows.trans hka
    have he := hgrows.extends_ h₀
    rw [← he.operands hc] at hx
    have hgr := hg _ hreach
    rw [← he.label? hc] at hgr
    obtain ⟨⟨a, b, hn, hl⟩, hfault⟩ := derivative_error (hgrows.lawful h₀) hx hgr hv
    rw [he.node? hc] at hn
    rw [he.isLiteral (h₀.wellFormed.lt_of_mem_operands hn (by simp))] at hl
    exact ⟨use.consumer, hreach, ⟨a, b, hn, hl⟩, hfault⟩
  | next hstep _ ih =>
    have hcases := step_cases hstep
    exact ih (hs.step_ok h₀ hstep) ((keeps_step hstep).walk_eq.trans hw) (hp.step hcases) hr

theorem adjoint_unsupported (hgrows : d₀.Grows d) (ht : t.Within d)
    (hw : t.walk = d₀.walk root) (node : NodeId) :
    (t.adjoint node d).2.1.walk = d₀.walk root ∧
      ∀ fault, (t.adjoint node d).1 = .error fault → Unsupported d₀ root fault := by
  have hd := hgrows.lawful h₀
  have hcov := Dag.walk_covers h₀.wellFormed hroot
  have hfinds := finds_adjoint (hw ▸ hcov.climbs h₀.wellFormed hroot) node d
  generalize t.adjoint node d = r at hfinds
  refine ⟨hfinds.keeps.walk_eq.trans hw, fun fault hf => ?_⟩
  have hs := sums_frame hd hgrows ht node
  have hp : Pending t.walk [(t.frame node d).1] := List.forall_mem_singleton.2 fun use hu => hu
  cases hfinds with
  | known | sum => cases hf
  | fail _ _ hruns =>
    exact hruns.unsupported h₀ hroot hg hs hw hp (congrArg _ (Except.error.inj hf))

theorem adjoints_unsupported (nodes : List NodeId) (hgrows : d₀.Grows d) (ht : t.Within d)
    (hw : t.walk = d₀.walk root) {fault : Fault}
    (hf : (adjoints nodes t d).1 = .error fault) : Unsupported d₀ root fault := by
  induction nodes generalizing t d with
  | nil => cases hf
  | cons node nodes ih =>
    obtain ⟨ha, hwithin⟩ := adjoint_adds (hgrows.lawful h₀) ht node
    obtain ⟨hwalk, herror⟩ := adjoint_unsupported h₀ hroot hg hgrows ht hw node
    rw [adjoints] at hf
    rcases hr : t.adjoint node d with ⟨o, t₁, d₁⟩
    rw [hr] at ha hwithin hwalk herror hf
    cases o with
    | error fault' => exact herror _ (congrArg _ (Except.error.inj hf))
    | ok first =>
      refine ih (hgrows.trans ha.grows) hwithin hwalk ?_
      rcases hrest : adjoints nodes t₁ d₁ with ⟨o, t₂, d₂⟩
      simp only [hrest] at hf ⊢
      cases o with
      | ok => cases hf
      | error => exact hf

end Adjoints

/-- The differentiation of a root fails at a power under the root, or it answers a gradient, unless
the root is misused, which leaves the graph as it is. -/
theorem backward_cases {d : Dag α} (h : d.Lawful) (root : NodeId) :
    (d.Misused root ∧
      ∃ cause ∈ [Misuse.foreign root, .alreadyGradient root, .containsGradient root],
        backward root d = (.error (.misuse cause), d)) ∨
    (¬ d.Misused root ∧ ∃ id d', d.Reaches root id ∧ d.OpenPower id ∧
      backward root d = (.error (.unsupportedDerivative id exponentReason), d')) ∨
    (¬ d.Misused root ∧ ∃ g d', backward root d = (.ok g, d')) := by
  rcases Dag.checkRoot_cases h.wellFormed root with ⟨hm, cause, hcause, hc⟩ | ⟨hm, hc⟩
  · refine Or.inl ⟨hm, cause, hcause, ?_⟩
    rw [backward, hc]
  · obtain ⟨hroot, horder⟩ := Dag.checkRoot_eq_ok hc
    have hcov := Dag.walk_covers h.wellFormed hroot
    have hwithin := Adjoints.within_start root (d.walk root) d
    have hadds := Adjoints.adjoints_adds h hwithin (d.walk root).freeVars
    rcases hr : Adjoints.adjoints (d.walk root).freeVars (.start root (d.walk root)) d
      with ⟨o, t, d₁⟩
    rw [hr] at hadds
    cases o with
    | error fault =>
      obtain ⟨id, hreach, hid, rfl⟩ := Adjoints.adjoints_unsupported h hroot
        (fun id hreach => horder id ((hcov.mem_order_iff id).2 hreach)) (d.walk root).freeVars
        (.refl d) hwithin rfl (congrArg Prod.fst hr)
      refine Or.inr (Or.inl ⟨hm, id, d₁, hreach, hid, ?_⟩)
      rw [backward, hc]
      simp only [hr]
    | ok partials =>
      have he := hadds.grows.extends_ h
      have hlen := (Adjoints.adjoints_reads (Adjoints.reading_support h hroot hcov) h
        (Adjoints.known_start _ root _ d) hr).2.length_eq
      have hb : d₁.checkBundle ⟨root, partials, (d.walk root).freeVars⟩ = .ok () := by
        refine Dag.checkBundle_eq_ok_iff.2 ⟨hlen.symm, he.lt_count hroot,
          fun x hx => hadds.lt x ⟨partials, rfl, hx⟩, fun v hv => ?_⟩
        have hname := (hcov.mem_freeVars_iff.1 hv).2
        rwa [he.name? (Dag.lt_of_isSome_name? hname)]
      refine Or.inr (Or.inr ⟨hm, ?_⟩)
      simp only [backward, hc, hr, Dag.Bundle.build, hb]
      exact ⟨_, _, rfl⟩

namespace Dag

/-- The outcome of differentiation. It is a misuse, which leaves the graph as it is, if and only if
the root is no node of the graph or has a gradient under it. Otherwise it is an unsupported
derivative if and only if there is a power under the root with an exponent that is not a literal,
and it names such a power. Otherwise it is a gradient. No access on the way is out of range. -/
theorem Reachable.backward_outcome {d : Dag α} (h : d.Reachable) (root : NodeId) :
    Access.backward root d = some (SharedExpr.backward root d) ∧
    ∃ outcome d', (Command.backward root).run d = (some outcome, d') ∧
      ((∃ cause, outcome = .failure (.misuse cause)) ↔ d.Misused root) ∧
      (∀ cause, outcome = .failure (.misuse cause) → d' = d ∧
        cause ∈ [Misuse.foreign root, .alreadyGradient root, .containsGradient root]) ∧
      ((∃ id reason, outcome = .failure (.unsupportedDerivative id reason)) ↔
        ¬ d.Misused root ∧ ∃ id, d.Reaches root id ∧ d.OpenPower id) ∧
      (∀ id reason, outcome = .failure (.unsupportedDerivative id reason) →
        reason = exponentReason ∧ d.Reaches root id ∧ d.OpenPower id) ∧
      ((∃ g, outcome = .node g) ↔
        ¬ d.Misused root ∧ ¬ ∃ id, d.Reaches root id ∧ d.OpenPower id) := by
  have hd := h.lawful
  refine ⟨Access.backward_eq hd root, ?_⟩
  rw [Command.run, Command.attempt_apply]
  rcases backward_cases hd root with ⟨hm, cause, hcause, hb⟩ | ⟨hm, id, d', hr, hp, hb⟩ |
    ⟨hm, g, d', hb⟩
  · rw [hb]
    refine ⟨_, _, rfl, ?_⟩
    simpa [Outcome.ofExcept, hm] using hcause
  · rw [hb]
    refine ⟨_, _, rfl, ?_⟩
    have hex : ∃ id, d.Reaches root id ∧ d.OpenPower id := ⟨id, hr, hp⟩
    simp [Outcome.ofExcept, hm, hr, hp, hex]
  · rw [hb]
    refine ⟨_, _, rfl, ?_⟩
    have hnone : ¬ ∃ id, d.Reaches root id ∧ d.OpenPower id := by
      rintro ⟨id, hr, x, y, hn, hl⟩
      rw [(backward_differentiable hd hb).literal_exponent id x y hr hn] at hl
      cases hl
    simp [Outcome.ofExcept, hm, hnone]

def power : Dag Double :=
  ((Command.build (.binary .pow (.var "x") (.var "y"))).run empty).2

theorem reachable_power : power.Reachable := by
  have ho : ((Command.build (.binary .pow (.var "x") (.var "y"))).run (empty : Dag Double)).1 =
      some (.node 2) := by cbv
  exact Reachable.empty.next ho

/-- There is no gradient of `x ^ y`, and it is the power that is named. -/
theorem power_backward_outcome : ∃ d', (Command.backward 2).run power =
    (some (.failure (.unsupportedDerivative 2 exponentReason)), d') := by
  have hx : power.node? 0 = some ⟨.var "x", []⟩ := by cbv
  have hy : power.node? 1 = some ⟨.var "y", []⟩ := by cbv
  have hn : power.node? 2 = some ⟨.binary .pow, [0, 1]⟩ := by cbv
  have hnodes : ∀ id, power.Reaches 2 id → id = 0 ∨ id = 1 ∨ id = 2 := by
    intro id hr
    have hle := hr.le reachable_power.lawful.wellFormed
    interval_cases id <;> simp
  have hm : ¬ power.Misused 2 := by
    refine not_misused (lt_of_node? hn) fun id hr => ?_
    rcases hnodes id hr with rfl | rfl | rfl
    · simp [label?_of_node? hx, Label.isGradient]
    · simp [label?_of_node? hy, Label.isGradient]
    · simp [label?_of_node? hn, Label.isGradient]
  obtain ⟨-, outcome, d', hrun, -, -, hpower, hnamed, -⟩ := reachable_power.backward_outcome 2
  obtain ⟨id, reason, rfl⟩ := hpower.2 ⟨hm, 2, .refl, 0, 1, hn, by cbv⟩
  obtain ⟨rfl, hr, x, y, hid, -⟩ := hnamed id reason rfl
  rcases hnodes id hr with rfl | rfl | rfl
  · cases hx.symm.trans hid
  · cases hy.symm.trans hid
  · exact ⟨d', hrun⟩

end Dag

end SharedExpr

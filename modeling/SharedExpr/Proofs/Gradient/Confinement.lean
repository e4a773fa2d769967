import SharedExpr.Proofs.Expr.Confinement
import SharedExpr.Proofs.Gradient.Support

/-! The partial derivatives of a gradient are over the variables of its root. -/
namespace SharedExpr

variable {α : Type} [Scalar α] {d d' : Dag α} {P : Dag α → NodeId → Prop}

theorem Unary.derivative_grounded (op : Unary) (node x : NodeId) :
    (op.derivative node x : Expr α).Grounded := by
  cases op <;> simp [derivative, Expr.Grounded]

theorem Binary.derivative?_grounded {op : Binary} {literalExponent first : Bool}
    {x y dx dy : NodeId} {e : Expr α}
    (h : op.derivative? literalExponent x y dx dy first = some e) : e.Grounded := by
  cases op with
  | add | sub | mul | div =>
    obtain rfl := Option.some.inj h
    simp [Expr.Grounded]
  | pow =>
    rw [derivative?] at h
    split at h
    · obtain rfl := Option.some.inj h
      simp [Expr.Grounded]
    · obtain ⟨-, ⟨⟩⟩ := Option.ite_none_right_eq_some.1 h
      trivial

theorem Derives.grounded {consumer : NodeId} {position : Nat} {e : Expr α} {d₁ : Dag α}
    (h : Derives d consumer position e d₁) : e.Grounded := by
  cases h with
  | unary => exact Unary.derivative_grounded _ _ _
  | binary _ _ he => exact Binary.derivative?_grounded he

namespace Dag.Hereditary

variable (hP : Hereditary P)
include hP

theorem operandSeeds (h : d.Lawful) {first : Bool} {dx dy : NodeId} {d₁ : Dag α}
    (hs : operandSeeds first d = ((dx, dy), d₁)) : P d₁ dx ∧ P d₁ dy := by
  have hboth : ∀ a b : α, P (Build.lit b (Build.lit a d).2).2 (Build.lit a d).1 ∧
      P (Build.lit b (Build.lit a d).2).2 (Build.lit b (Build.lit a d).2).1 := by
    intro a b
    have ha := adds_lit h a
    have h₁ := ha.grows.lawful h
    exact ⟨hP.lasting h₁.wellFormed ((adds_lit h₁ b).grows.extends_ h₁) (ha.lt _ rfl)
      (hP.lit h.wellFormed a), hP.lit h₁.wellFormed b⟩
  cases first with
  | true =>
    have h := hboth Scalar.one Scalar.zero
    cases hs
    exact h
  | false =>
    have h := hboth Scalar.zero Scalar.one
    cases hs
    exact h

theorem derivative (h : d.Lawful) {consumer slope : NodeId} {position : Nat}
    (hc : P d consumer) (hs : derivative consumer position d = (.ok slope, d')) : P d' slope := by
  obtain ⟨e, d₁, hd, hb⟩ := derivative_eq_ok h hs
  have hg := hd.grows h
  have he := hg.extends_ h
  have hunder : ∀ {x : NodeId}, x ∈ d.operands consumer → P d₁ x := fun hx =>
    hP.lasting h.wellFormed he (h.wellFormed.operand_lt_count hx) (hP.under hc (.single hx))
  have hbuild := hP.buildExpr (hg.lawful h) hd.grounded (hd.refs_lt h) fun id hid => ?_
  · rwa [hb] at hbuild
  cases hd with
  | @unary op x hn =>
    rcases op.derivative_refs consumer x id hid with rfl | rfl
    · exact hc
    · exact hunder (by simp [operands_of_node? hn])
  | @binary op x y dx dy _ _ hn hseeds heq =>
    obtain ⟨hdx, hdy⟩ := hP.operandSeeds h hseeds
    rcases Binary.derivative?_refs heq id hid with rfl | rfl | rfl | rfl
    · exact hunder (by simp [operands_of_node? hn])
    · exact hunder (by simp [operands_of_node? hn])
    · exact hdx
    · exact hdy

theorem accumulate (h : d.Lawful) {sum weight slope : NodeId} (hs : sum < d.count)
    (hw : weight < d.count) (hsl : slope < d.count) (hPs : P d sum) (hPw : P d weight)
    (hPsl : P d slope) :
    P (Adjoints.accumulate sum weight slope d).2 (Adjoints.accumulate sum weight slope d).1 := by
  have hx : ∀ x ∈ (Application.binary .mul weight slope).operands, x < d.count := by
    simpa [Application.operands] using ⟨hw, hsl⟩
  have hterm := Application.adds_build h hx
  have hPterm := hP.build h hx (by simpa [Application.operands] using ⟨hPw, hPsl⟩)
  have he := hterm.grows.extends_ h
  refine hP.build (hterm.grows.lawful h) ?_ ?_
  · simpa [Application.operands] using ⟨he.lt_count hs, hterm.lt _ rfl⟩
  · simpa [Application.operands] using ⟨hP.lasting h.wellFormed he hs hPs, hPterm⟩

/-- The adjoints that are summed up have what the root has. -/
theorem reading {d₀ : Dag α} (h₀ : d₀.Lawful) {root : NodeId} (hroot : root < d₀.count) {w : Walk}
    (hc : Walk.Covers d₀ root w) (hPr : P d₀ root) :
    Adjoints.Reading d₀ root w (fun _ id d => P d id) (fun _ id d => P d id) where
  grow_sum h hg hid hs := hP.lasting (h.lawful h₀).wellFormed (hg.extends_ (h.lawful h₀)) hid hs
  grow_adjoint h hg hid ha := hP.lasting (h.lawful h₀).wellFormed (hg.extends_ (h.lawful h₀)) hid ha
  seed h := hP.lit (h.lawful h₀).wellFormed Scalar.one
  zero h := hP.lit (h.lawful h₀).wellFormed Scalar.zero
  add := by
    intro node done use id weight slope d d' hg huse hid hwlt hsum hweight hs
    have hd := hg.lawful h₀
    have hr := (hc.mem_usesOf_iff.1 huse).1
    have hcons := hP.lasting h₀.wellFormed (hg.extends_ h₀) (hr.lt_count h₀.wellFormed hroot)
      (hP.under hPr hr)
    have hva := derivative_adds hd use.consumer use.position
    rw [hs] at hva
    have he := hva.grows.extends_ hd
    exact hP.accumulate (hva.grows.lawful hd) (he.lt_count hid) (he.lt_count hwlt)
      (hva.lt slope rfl) (hP.lasting hd.wellFormed he hid hsum)
      (hP.lasting hd.wellFormed he hwlt hweight) (hP.derivative hd hcons hs)
  finish _ hs := hs

end Dag.Hereditary

/-- What becomes of a root of which a gradient is made. -/
structure Dag.Bundled (d : Dag α) (root g : NodeId) (partials : List NodeId) (d' : Dag α) :
    Prop where
  root_lt : root < d.count
  not_gradient : ∀ id, d.Reaches root id → (d.label? id).any Label.isGradient = false
  grows : d.Grows d'
  bundle? : d'.bundle? g = some ⟨root, partials, d.freeVars root⟩
  length_eq : partials.length = (d.freeVars root).length
  confined : ∀ x ∈ partials, d'.Confined [root] x

/-- A gradient is made of a root by adding partial derivatives over the variables of the root. -/
theorem backward_bundled (h : d.Lawful) {root g : NodeId} (hb : backward root d = (.ok g, d')) :
    ∃ partials, d.Bundled root g partials d' := by
  have hgrows := (backward_adds h root).grows
  rw [hb] at hgrows
  obtain ⟨hc, partials, t, d₁, ha, hbundle⟩ := backward_eq_ok hb
  obtain ⟨hroot, horder⟩ := Dag.checkRoot_eq_ok hc
  have hcov := Dag.walk_covers h.wellFormed hroot
  have hadds := Adjoints.adjoints_adds h (Adjoints.within_start root (d.walk root) d)
    (d.walk root).freeVars
  rw [ha] at hadds
  have h₁ := hadds.grows.lawful h
  have hadds' := Dag.Bundle.build_adds h₁ ⟨root, partials, (d.walk root).freeVars⟩
  rw [hbundle] at hadds'
  have hP := Dag.hereditary_confined (α := α) [root]
  have hread := (Adjoints.adjoints_reads (hP.reading h hroot hcov
    (Dag.confined_self (List.mem_singleton_self root))) h (Adjoints.known_start _ root _ d) ha).2
  refine ⟨partials, hroot, fun id hr => horder id ((hcov.mem_order_iff id).2 hr), hgrows,
    Dag.Bundle.bundle?_build h₁ hbundle, hread.length_eq.symm, fun x hx => ?_⟩
  obtain ⟨i, hi, rfl⟩ := List.getElem_of_mem hx
  refine hP.lasting h₁.wellFormed (hadds'.grows.extends_ h₁)
    (hadds.lt _ ⟨partials, rfl, List.getElem_mem hi⟩) ?_
  exact (List.forall₂_iff_get.1 hread).2 i (hread.length_eq ▸ hi) hi

end SharedExpr

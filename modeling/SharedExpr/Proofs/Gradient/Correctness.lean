import Mathlib
import SharedExpr.Proofs.Dag.ByteOrder
import SharedExpr.Proofs.Gradient.Exchange
import SharedExpr.Proofs.Gradient.Support

/-! The gradient of a node: its partial derivatives are the formal ones. -/
namespace SharedExpr

variable {K : Type} [Field K] [ExactScalar K]

namespace Dag

def NonzeroDenominators (d : Dag K) (ρ : String → K) (root : NodeId) : Prop :=
  ∀ id x y, d.Reaches root id → d.node? id = some ⟨.binary .div, [x, y]⟩ → d.denote ρ y ≠ 0

end Dag

namespace Adjoints

variable {d₀ d : Dag K} {ρ : String → K} {root : NodeId} {w : Walk}

theorem accumulate_value (h : d.Lawful) {sum weight slope : NodeId} (hs : sum < d.count)
    (hw : weight < d.count) (hsl : slope < d.count) :
    (accumulate sum weight slope d).2.denote ρ (accumulate sum weight slope d).1 =
      d.denote ρ sum + d.denote ρ weight * d.denote ρ slope := by
  have hx : ∀ x ∈ (Application.binary .mul weight slope).operands, x < d.count := by
    simpa [Application.operands] using ⟨hw, hsl⟩
  have hterm := Application.adds_build h hx
  have hv : ((Application.binary .mul weight slope).build d).2.denote ρ
      ((Application.binary .mul weight slope).build d).1 = d.denote ρ weight * d.denote ρ slope :=
    (Application.value_build h hx trivial).trans (ExactScalar.mul_eq _ _)
  have hy : ∀ x ∈ (Application.binary .add sum
      ((Application.binary .mul weight slope).build d).1).operands,
      x < ((Application.binary .mul weight slope).build d).2.count := by
    simpa [Application.operands] using ⟨(hterm.grows.extends_ h).lt_count hs, hterm.lt _ rfl⟩
  refine (Application.value_build (hterm.grows.lawful h) hy trivial).trans ?_
  rw [Application.value, ExactScalar.add_eq, hv, hterm.grows.denote h ρ hs]

/-- Sums have the values of the products that they add up, and adjoints those of the root's
derivatives. -/
theorem reading_value (h₀ : d₀.Lawful) (hroot : root < d₀.count) (hc : Walk.Covers d₀ root w)
    (hnz : d₀.NonzeroDenominators ρ root) :
    Reading d₀ root w
      (fun done id d => d.denote ρ id =
        (done.map fun use => d₀.adjoint ρ root w use.consumer * d₀.partialAt ρ use).sum)
      (fun node id d => d.denote ρ id = d₀.adjoint ρ root w node) where
  grow_sum h hg hid hs := (hg.denote (h.lawful h₀) ρ hid).trans hs
  grow_adjoint h hg hid ha := (hg.denote (h.lawful h₀) ρ hid).trans ha
  seed h := by
    rw [Dag.adjoint_root]
    have hone := Dag.denote_intern (h.lawful h₀) (.lit (Dag.normal_normal (Scalar.one : K))) ρ
    exact hone.trans ((ExactScalar.normal_eq _).trans ExactScalar.one_eq)
  zero h := by
    have hzero := Dag.denote_intern (h.lawful h₀) (.lit (Dag.normal_normal (Scalar.zero : K))) ρ
    exact hzero.trans ((ExactScalar.normal_eq _).trans ExactScalar.zero_eq)
  add := by
    intro node done use id weight slope d d' hg huse hid hwlt hsum hweight hs
    have hd := hg.lawful h₀
    have he := hg.extends_ h₀
    obtain ⟨hr, -⟩ := hc.mem_usesOf_iff.1 huse
    have hcons : use.consumer < d₀.count := hr.lt_count h₀.wellFormed hroot
    have hva := derivative_adds hd use.consumer use.position
    rw [hs] at hva
    have hslope : d'.denote ρ slope = d₀.partialAt ρ use := by
      rw [derivative_value hd hs, Dag.partialAt_grows hg h₀ hcons]
      intro x y hn
      rw [he.node? hcons] at hn
      have hy : y < d₀.count := h₀.wellFormed.lt_of_mem_operands hn (by simp)
      rw [hg.denote h₀ ρ hy]
      exact hnz use.consumer x y hr hn
    have he' := hva.grows.extends_ hd
    rw [accumulate_value (hva.grows.lawful hd) (he'.lt_count hid) (he'.lt_count hwlt)
      (hva.lt slope rfl), hva.grows.denote hd ρ hid, hva.grows.denote hd ρ hwlt, hsum, hweight,
      hslope, List.map_append, List.sum_append]
    simp
  finish hne hs := hs.trans (Dag.adjoint_eq h₀.wellFormed hc hne).symm

end Adjoints

variable {d d' : Dag K} {root g : NodeId}

/-- The partial derivatives of a gradient have the values of the formal ones. -/
theorem backward_value (h : d.Lawful) (hb : backward root d = (.ok g, d')) :
    ∃ partials, d'.bundle? g = some ⟨root, partials, d.freeVars root⟩ ∧
      ∀ ρ, d.NonzeroDenominators ρ root →
        List.Forall₂ (fun v x => d'.denote ρ x = d.slope ρ v root) (d.freeVars root) partials := by
  obtain ⟨hc, partials, t, d₁, ha, hbundle⟩ := backward_eq_ok hb
  obtain ⟨hroot, -⟩ := Dag.checkRoot_eq_ok hc
  have hcov := Dag.walk_covers h.wellFormed hroot
  have hadds := Adjoints.adjoints_adds h (Adjoints.within_start root (d.walk root) d)
    (d.walk root).freeVars
  rw [ha] at hadds
  have h₁ := hadds.grows.lawful h
  have hg : d₁.Grows d' := by
    have hbuild := Dag.Bundle.build_adds h₁ ⟨root, partials, (d.walk root).freeVars⟩
    rw [hbundle] at hbuild
    exact hbuild.grows
  refine ⟨partials, Dag.Bundle.bundle?_build h₁ hbundle, fun ρ hnz => ?_⟩
  have hread := (Adjoints.adjoints_reads (Adjoints.reading_value h hroot hcov hnz) h
    (Adjoints.known_start _ root _ d) ha).2
  rw [List.forall₂_iff_get] at hread ⊢
  refine ⟨hread.1, fun i hv hx => ?_⟩
  have hlt : partials.get ⟨i, hx⟩ < d₁.count := hadds.lt _ ⟨partials, rfl, List.get_mem _ _⟩
  rw [hg.denote h₁ ρ hlt, hread.2 i hv hx]
  exact (Dag.slope_root h hroot hcov (List.get_mem _ _)).symm

namespace Dag

/-- The gradient of a node has the node for its value and, for each variable under the node in the
order of the names by bytes, the formal derivative; there is one only where all exponents are
literals. -/
theorem Reachable.backward_slopes (h : d.Reachable)
    (hb : (Command.backward root).run d = (some (.node g), d')) :
    ∃ partials vars, d'.bundle? g = some ⟨root, partials, vars⟩ ∧
      (∀ v, v ∈ vars ↔ d.Reaches root v ∧ (d.name? v).isSome) ∧
      (∃ names : List String, vars.map d.name? = names.map some ∧
        names.Pairwise fun a b => bytes a < bytes b) ∧
      d.Differentiable root ∧
      ∀ ρ, d.NonzeroDenominators ρ root →
        List.Forall₂ (fun v x => d'.denote ρ x = d.slope ρ v root) vars partials := by
  have hd := h.lawful
  have hok : SharedExpr.backward root d = (.ok g, d') := by
    rw [Command.run, Command.attempt_apply] at hb
    rcases hr : (SharedExpr.backward root d : Except Fault NodeId × Dag K) with ⟨o, d₁⟩
    rw [hr] at hb
    cases o with
    | ok id =>
      cases hb
      rfl
    | error fault => cases hb
  obtain ⟨partials, hbundle, hvalue⟩ := backward_value hd hok
  have hroot := (checkRoot_eq_ok (backward_eq_ok hok).1).1
  obtain ⟨names, hmap, hnames⟩ := freeVars_names hd hroot
  exact ⟨partials, d.freeVars root, hbundle,
    fun v => (walk_covers hd.wellFormed hroot).mem_freeVars_iff,
    ⟨names, hmap, hnames.imp bytes_lt⟩, backward_differentiable hd hok, hvalue⟩

/-- Three for the variable `x`, two for all others. -/
def point (name : String) : ℚ :=
  if name = "x" then 3 else 2

theorem quotient_nonzeroDenominators : quotient.NonzeroDenominators point 2 := by
  intro id x y hr hn
  have hid : id = 0 ∨ id = 1 ∨ id = 2 := by
    have hle := hr.le reachable_quotient.lawful.wellFormed
    interval_cases id <;> simp
  have h₀ : quotient.node? 0 = some ⟨.var "x", []⟩ := by cbv
  have h₁ : quotient.node? 1 = some ⟨.var "y", []⟩ := by cbv
  have h₂ : quotient.node? 2 = some ⟨.binary .div, [0, 1]⟩ := by cbv
  have hy : quotient.denote point 1 = 2 := by cbv
  rcases hid with rfl | rfl | rfl
  · cases h₀.symm.trans hn
  · cases h₁.symm.trans hn
  · cases h₂.symm.trans hn
    rw [hy]
    exact two_ne_zero

/-- The gradient of `x / y` at three and two. -/
theorem quotient_backward_slopes :
    ∃ d' partials, (Command.backward 2).run quotient = (some (.node 10), d') ∧
      d'.bundle? 10 = some ⟨2, partials, [0, 1]⟩ ∧
      partials.map (d'.denote point) = [1 / 2, -3 / 4] := by
  have hrun : (Command.backward 2).run quotient =
      (some (.node 10), ((Command.backward 2).run quotient).2) := Prod.ext (by cbv) rfl
  obtain ⟨partials, vars, hbundle, -, -, -, hvalue⟩ := reachable_quotient.backward_slopes hrun
  have hvars : vars = [0, 1] := by
    have hb : (((Command.backward 2).run quotient).2.bundle? 10).map Bundle.vars = some [0, 1] := by
      cbv
    rw [hbundle] at hb
    exact Option.some.inj hb
  subst hvars
  refine ⟨_, partials, hrun, hbundle, ?_⟩
  have hx : quotient.slope point 0 2 = 1 / 2 := by cbv
  have hy : quotient.slope point 1 2 = -3 / 4 := by cbv
  cases hvalue point quotient_nonzeroDenominators with
  | cons hdx hrest =>
    cases hrest with
    | cons hdy hnil =>
      cases hnil
      simp [hdx, hdy, hx, hy]

end Dag

end SharedExpr

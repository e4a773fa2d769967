import SharedExpr.Proofs.Dag.Walk
import SharedExpr.Proofs.Gradient.Summation

/-! What can be differentiated: a gradient exists only over powers with literal exponents. -/
namespace SharedExpr

variable {α : Type} [Scalar α]

namespace Dag

/-- There is no gradient under a root, and all exponents are literals. -/
structure Differentiable (d : Dag α) (root : NodeId) : Prop where
  not_gradient : ∀ id, d.Reaches root id → (d.label? id).any Label.isGradient = false
  literal_exponent : ∀ id x y, d.Reaches root id → d.node? id = some ⟨.binary .pow, [x, y]⟩ →
    d.isLiteral y

/-- The consumer of a use has a derivative along it: it is no power with an exponent that is not a
literal, or the use is that of the base. -/
def Supports (d : Dag α) (use : Use) : Prop :=
  ∀ x y, d.node? use.consumer = some ⟨.binary .pow, [x, y]⟩ → use.position = 0 ∨ d.isLiteral y

/-- All uses on the ways from a node up to the root are supported. -/
inductive Supported (d : Dag α) (root : NodeId) (w : Walk) : NodeId → Prop
  | root : Supported d root w root
  | uses {id : NodeId} (h : ∀ use ∈ (w.usesOf id).toList, d.Supports use)
    (hup : ∀ use ∈ (w.usesOf id).toList, Supported d root w use.consumer) : Supported d root w id

variable {d d' : Dag α} {root : NodeId} {w : Walk}

/-- A node that is not a literal has a variable under it, or a gradient. -/
theorem exists_variable (h : d.Lawful) {id : NodeId} (hid : id < d.count)
    (hl : d.isLiteral id = false)
    (hg : ∀ x, d.Reaches id x → (d.label? x).any Label.isGradient = false) :
    ∃ v, d.Reaches id v ∧ (d.name? v).isSome := by
  induction id using Nat.strongRecOn with
  | _ id ih =>
    obtain ⟨⟨label, operands⟩, hn⟩ := exists_node? hid
    have hunder : ∀ x ∈ operands, d.isLiteral x = false →
        ∃ v, d.Reaches id v ∧ (d.name? v).isSome := by
      intro x hx hxl
      have hop : x ∈ d.operands id := operands_of_node? hn ▸ hx
      have hlt := h.wellFormed.operands_lt id x hop
      obtain ⟨v, hv, hname⟩ := ih x hlt (Nat.lt_trans hlt hid) hxl fun y hy => hg y (.head hop hy)
      exact ⟨v, .head hop hv, hname⟩
    cases h.admits hn with
    | lit => simp [isLiteral, literal?, label?_of_node? hn, Label.literal?] at hl
    | var name => exact ⟨id, .refl, by simp [name?, label?_of_node? hn, Label.name?]⟩
    | unary op hx hxl => exact hunder _ (by simp) hxl
    | binary op hx hy hxy =>
      rcases hxy with hxl | hyl
      · exact hunder _ (by simp) hxl
      · exact hunder _ (by simp) hyl
    | gradient =>
      have hid := hg id .refl
      simp [label?_of_node? hn, Label.isGradient] at hid

theorem Supported.of_reaches (hw : d.WellFormed) (hc : Walk.Covers d root w) {id v : NodeId}
    (hr : d.Reaches root id) (hv : d.Reaches id v) (hs : d.Supported root w v) :
    d.Supported root w id := by
  induction hv with
  | refl => exact hs
  | @tail c x hrc hx ih =>
    refine ih ?_
    have hroot : d.Reaches root c := hr.trans hrc
    obtain ⟨p, hp, hget⟩ := List.mem_iff_getElem.1 hx
    have huse : (⟨c, p⟩ : Use) ∈ (w.usesOf x).toList :=
      hc.mem_usesOf_iff.2 ⟨hroot, (List.getElem?_eq_getElem hp).trans (congrArg some hget)⟩
    cases hs with
    | root => exact absurd (hw.operands_lt c root hx) (Nat.not_lt.2 (hroot.le hw))
    | uses _ hup => exact hup _ huse

/-- If the ways up from all variables are supported, all exponents are literals. -/
theorem literal_exponent_of_supported (h : d.Lawful) (hroot : root < d.count)
    (hc : Walk.Covers d root w)
    (hg : ∀ id, d.Reaches root id → (d.label? id).any Label.isGradient = false)
    (hs : ∀ v ∈ w.freeVars, d.Supported root w v) {id x y : NodeId} (hr : d.Reaches root id)
    (hn : d.node? id = some ⟨.binary .pow, [x, y]⟩) : d.isLiteral y := by
  by_contra hl
  have hop : y ∈ d.operands id := by simp [operands_of_node? hn]
  have hry : d.Reaches root y := hr.tail hop
  obtain ⟨v, hv, hname⟩ := exists_variable h (hry.lt_count h.wellFormed hroot)
    (Bool.eq_false_iff.2 hl) fun z hz => hg z (hry.trans hz)
  have hys := Supported.of_reaches h.wellFormed hc hry hv
    (hs v (hc.mem_freeVars_iff.2 ⟨hry.trans hv, hname⟩))
  have huse : (⟨id, 1⟩ : Use) ∈ (w.usesOf y).toList :=
    hc.mem_usesOf_iff.2 ⟨hr, by simp [operands_of_node? hn]⟩
  cases hys with
  | root =>
    exact absurd (h.wellFormed.operands_lt id root hop) (Nat.not_lt.2 (hr.le h.wellFormed))
  | uses hall _ =>
    rcases hall _ huse x y hn with hp | hy
    · cases hp
    · exact hl hy

end Dag

theorem derivative_supports {d d' : Dag α} (h : d.Lawful) {use : Use} {slope : NodeId}
    (hs : derivative use.consumer use.position d = (.ok slope, d')) : d.Supports use := by
  intro x y hn
  obtain ⟨e, d₁, hd, -⟩ := derivative_eq_ok h hs
  have hg := hd.grows h
  cases hd with
  | unary hn' => cases hn.symm.trans hn'
  | binary hn' _ he =>
    cases hn.symm.trans hn'
    have hy : y < d.count := h.wellFormed.lt_of_mem_operands hn (by simp)
    rw [(hg.extends_ h).isLiteral hy, Binary.derivative?] at he
    split at he
    · next hp => exact Or.inl (by simpa using hp)
    · exact Or.inr (Option.ite_none_right_eq_some.1 he).1

namespace Adjoints

variable {d₀ : Dag α} {root : NodeId} {w : Walk}

theorem reading_support (h₀ : d₀.Lawful) (hroot : root < d₀.count) (hc : Walk.Covers d₀ root w) :
    Reading d₀ root w
      (fun done _ _ => ∀ use ∈ done, d₀.Supports use ∧ d₀.Supported root w use.consumer)
      (fun node _ _ => d₀.Supported root w node) where
  grow_sum _ _ _ h := h
  grow_adjoint _ _ _ h := h
  seed _ := .root
  zero _ := by simp
  add := by
    intro node done use id weight slope d d' hg huse _ _ hsum hweight hs
    have hcons : use.consumer < d₀.count :=
      (hc.mem_usesOf_iff.1 huse).1.lt_count h₀.wellFormed hroot
    have he := hg.extends_ h₀
    have hsup : d₀.Supports use := by
      intro x y hn
      have hy : y < d₀.count := h₀.wellFormed.lt_of_mem_operands hn (by simp)
      rw [← he.isLiteral hy]
      exact derivative_supports (hg.lawful h₀) hs x y (he _ _ hn)
    intro u hu
    rcases List.mem_append.1 hu with hu | hu
    · exact hsum u hu
    · exact List.mem_singleton.1 hu ▸ ⟨hsup, hweight⟩
  finish _ h := .uses (fun use hu => (h use hu).1) fun use hu => (h use hu).2

end Adjoints

namespace Dag

theorem checkRoot_eq_ok {d : Dag α} {root : NodeId} (h : d.checkRoot root = .ok ()) :
    root < d.count ∧
      ∀ id ∈ (d.walk root).order.toList, (d.label? id).any Label.isGradient = false := by
  rw [checkRoot] at h
  cases hc : d.check root with
  | error fault => simp [hc, bind, Except.bind] at h
  | ok =>
    refine ⟨lt_of_check hc, fun id hid => ?_⟩
    by_contra hg
    have hany : (d.walk root).order.any fun id => (d.label? id).any Label.isGradient := by
      rw [Array.any_eq_true']
      exact ⟨id, Array.mem_toList_iff.1 hid, by simpa using hg⟩
    by_cases hr : (d.label? root).any Label.isGradient
    · simp [hc, hr, bind, Except.bind, throw, throwThe, MonadExceptOf.throw] at h
    · simp [hc, hr, hany, bind, Except.bind, throw, throwThe, MonadExceptOf.throw] at h

theorem Bundle.bundle?_build {d d' : Dag α} (h : d.Lawful) {parts : Bundle} {g : NodeId}
    (hb : parts.build d = (.ok g, d')) : d'.bundle? g = some parts := by
  rw [build] at hb
  cases hc : d.checkBundle parts with
  | error fault =>
    rw [hc] at hb
    cases hb
  | ok =>
    rw [hc] at hb
    cases hb
    exact bundle?_eq_some_iff.2 (node?_intern h.wellFormed parts.node)

end Dag

variable {d d' : Dag α} {root g : NodeId}

theorem backward_eq_ok (hb : backward root d = (.ok g, d')) :
    d.checkRoot root = .ok () ∧ ∃ partials t d₁,
      Adjoints.adjoints (d.walk root).freeVars (.start root (d.walk root)) d =
        (.ok partials, t, d₁) ∧
      Dag.Bundle.build ⟨root, partials, (d.walk root).freeVars⟩ d₁ = (.ok g, d') := by
  rw [backward] at hb
  cases hc : d.checkRoot root with
  | error fault =>
    rw [hc] at hb
    cases hb
  | ok =>
    rw [hc] at hb
    dsimp only at hb
    rcases ha : Adjoints.adjoints (d.walk root).freeVars (.start root (d.walk root)) d
      with ⟨o, t, d₁⟩
    rw [ha] at hb
    cases o with
    | error fault => cases hb
    | ok partials => exact ⟨rfl, partials, t, d₁, rfl, hb⟩

/-- A node that has a gradient can be differentiated. -/
theorem backward_differentiable (h : d.Lawful) (hb : backward root d = (.ok g, d')) :
    d.Differentiable root := by
  obtain ⟨hc, partials, t, d₁, ha, -⟩ := backward_eq_ok hb
  obtain ⟨hroot, hg⟩ := Dag.checkRoot_eq_ok hc
  have hcov := Dag.walk_covers h.wellFormed hroot
  have hgr := fun id hr => hg id ((hcov.mem_order_iff id).2 hr)
  have hread := (Adjoints.adjoints_reads (Adjoints.reading_support h hroot hcov) h
    (Adjoints.known_start _ root _ d) ha).2
  have hs : ∀ v ∈ (d.walk root).freeVars, d.Supported root (d.walk root) v := by
    clear ha hb
    generalize (d.walk root).freeVars = vars at hread
    induction hread with
    | nil => simp
    | cons hv _ ih =>
      intro v hm
      rcases List.mem_cons.1 hm with rfl | hm
      · exact hv
      · exact ih v hm
  exact ⟨hgr, fun id x y hr hn => Dag.literal_exponent_of_supported h hroot hcov hgr hs hr hn⟩

end SharedExpr

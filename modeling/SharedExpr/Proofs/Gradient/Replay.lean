import SharedExpr.Proofs.Dag.Revisit
import SharedExpr.Proofs.Expr.Replay
import SharedExpr.Proofs.Gradient.Termination

/-! Differentiation does the same in every graph that extends what it leads to. -/
namespace SharedExpr

variable {α : Type} [Scalar α] {d d' e : Dag α}

theorem replays_operandSeeds (h : d.Lawful) (first : Bool) : d.Replays (operandSeeds first) := by
  have hboth : ∀ a b : α, d.Replays fun e =>
      (((Build.lit a e).1, (Build.lit b (Build.lit a e).2).1),
        (Build.lit b (Build.lit a e).2).2) := by
    intro a b
    have h₁ := (Dag.adds_lit h a).grows.lawful h
    exact (Dag.replays_lit h.wellFormed a).bind
      (g := fun x e => ((x, (Build.lit b e).1), (Build.lit b e).2))
      ((Dag.replays_lit h₁.wellFormed b).map _) ((Dag.adds_lit h₁ b).grows.extends_ h₁)
  cases first with
  | true => exact hboth Scalar.one Scalar.zero
  | false => exact hboth Scalar.zero Scalar.one

theorem replays_derivative (h : d.Lawful) {consumer : NodeId} (hc : consumer < d.count)
    (position : Nat) : d.Replays (derivative consumer position) := by
  intro e hext hl
  have he := ((derivative_adds h consumer position).grows.extends_ h).trans hext
  have hrefs := fun ex d₁ (hd : Derives d consumer position ex d₁) => hd.refs_lt h
  obtain ⟨⟨label, operands⟩, hn⟩ := Dag.exists_node? hc
  have hn' := he _ _ hn
  cases h.admits hn with
  | lit | var | gradient => simp only [derivative, hn, hn']
  | @unary op x =>
    have hr := Expr.replays_build h (hrefs _ _ (.unary hn)) e
    simp only [derivative, hn, hn'] at hext ⊢
    rw [hr hext hl]
    rfl
  | @binary op x y hx hy =>
    have hg := (operandSeeds_adds h (position == 0)).grows
    have hr := replays_operandSeeds h (position == 0) e
    rcases hs : operandSeeds (position == 0) d with ⟨⟨dx, dy⟩, d₁⟩
    rw [hs] at hg hr
    have hy₁ : e.isLiteral y = d₁.isLiteral y := by
      rw [he.isLiteral hy, (hg.extends_ h).isLiteral hy]
    simp only [derivative, hn, hs] at hext
    simp only [derivative, hn, hn', hs]
    cases hd : (op.derivative? (d₁.isLiteral y) x y dx dy (position == 0) : Option (Expr α)) with
    | none =>
      simp only [hd] at hext
      simp only [hr hext hl, hy₁, hd]
    | some ex =>
      have hex := hrefs _ _ (.binary hn hs hd)
      have h₁ := hg.lawful h
      simp only [hd] at hext
      have he₁ := ((Expr.adds_build h₁ hex).grows.extends_ h₁).trans hext
      simp only [hr he₁ hl, hy₁, hd]
      rw [Expr.replays_build h₁ hex e hext hl]
      rfl

namespace Adjoints

/-- The same adjoints, for a walk of another graph. -/
def along (t : Adjoints) (w : Walk) : Adjoints :=
  { t with walk := w }

variable {t t' : Adjoints} {w : Walk} {top : Frame} {rest stack : List Frame}

theorem known?_replays (h : d.Lawful) {node : NodeId} {o : Option NodeId}
    (hk : t.known? node d = (o, t', d')) (he : d'.Extends e) (hl : e.Lawful) :
    (t.along w).known? node e = (o, t'.along w, e) := by
  rcases known?_cases t node d with ⟨a, hm, hk'⟩ | ⟨hm, hr, hk'⟩ | ⟨hm, hr, hk'⟩
  · cases hk.symm.trans hk'
    simp only [known?, along, hm]
  · cases hk.symm.trans hk'
    have hone : Build.one e = ((Build.one d).1, e) :=
      Dag.replays_lit h.wellFormed Scalar.one e he hl
    subst hr
    simp only [known?, along, hm, if_true, hone, insert]
  · cases hk.symm.trans hk'
    simp only [known?, along, hm, hr, if_false]

theorem frame_replays (h : d.WellFormed) (hu : ∀ id, w.usesOf id = t.walk.usesOf id)
    (node : NodeId) (he : (t.frame node d).2.Extends e) (hl : e.Lawful) :
    (t.along w).frame node e = ((t.frame node d).1, e) := by
  have hz : Build.zero e = ((Build.zero d).1, e) := Dag.replays_lit h Scalar.zero e he hl
  simp only [frame, hz, along, hu]
  rfl

theorem replays_accumulate (h : d.Lawful) {sum weight slope : NodeId} (hs : sum < d.count)
    (hw : weight < d.count) (hsl : slope < d.count) :
    d.Replays (accumulate sum weight slope) := by
  have hx : ∀ x ∈ (Application.binary .mul weight slope).operands, x < d.count :=
    Application.operands_lt hw hsl
  have hterm := Application.adds_build h hx
  have h₁ := hterm.grows.lawful h
  have hx₁ : ∀ x ∈ (Application.binary .add sum
      ((Application.binary .mul weight slope).build d).1).operands,
      x < ((Application.binary .mul weight slope).build d).2.count :=
    Application.operands_lt ((hterm.grows.extends_ h).lt_count hs) (hterm.lt _ rfl)
  exact (Application.replays_build h hx).bind
    (g := fun term => (Application.binary .add sum term).build) (Application.replays_build h₁ hx₁)
    ((Application.adds_build h₁ hx₁).grows.extends_ h₁)

theorem step_replays (h : d.Lawful) (ht : t.Within d)
    (hu : ∀ id, w.usesOf id = t.walk.usesOf id) (hsum : top.sum < d.count)
    (hc : ∀ use ∈ top.pending, use.consumer < d.count) {o : Except Fault (List Frame)}
    (hs : step top rest t d = (o, t', d')) (he : d'.Extends e) (hl : e.Lawful) :
    step top rest (t.along w) e = (o, t'.along w, e) := by
  cases o with
  | error fault =>
    obtain ⟨use, pending, weight, d₁, hp, hk, hv⟩ := step_error hs
    have hka := (known?_adds h ht use.consumer).1.grows
    rw [hk] at hka
    have h₁ := hka.lawful h
    have hcons := (hka.extends_ h).lt_count (hc use (hp ▸ List.mem_cons_self))
    have hva := (derivative_adds h₁ use.consumer use.position).grows.extends_ h₁
    have hv' := replays_derivative h₁ hcons use.position e
    rw [hv] at hva hv'
    simp only [step, hp, known?_replays h hk (hva.trans he) hl, hv' he hl]
  | ok stack =>
    cases step_cases hs with
    | finish hp =>
      simp only [step, hp]
      rfl
    | @descend use pending hp hm hr =>
      have hza := (Dag.adds_lit h Scalar.zero).grows.extends_ h
      simp only [step, hp, known?_replays h (known?_of_none hm hr) (hza.trans he) hl,
        frame_replays h.wellFormed hu use.consumer he hl]
      rfl
    | @add use pending weight slope _ d₁ d₂ hp hk hv =>
      have hw := weighed h ht hsum hk hv
      have h₁ := hw.weighs.lawful h
      have h₂ := hw.grows.lawful h
      have hcons := (hw.weighs.extends_ h).lt_count (hc use (hp ▸ List.mem_cons_self))
      have hv' := replays_derivative h₁ hcons use.position e
      rw [hv] at hv'
      have hext := ((hw.adds h).grows.extends_ h₂).trans he
      have hsum' := replays_accumulate h₂ hw.sum_lt hw.weight_lt hw.slope_lt e he hl
      simp only [step, hp, known?_replays h hk ((hw.slopes.extends_ h₁).trans hext) hl, hv' hext hl,
        hsum']

theorem Runs.replays {r : Except Fault Unit × Adjoints × Dag α} (h : Runs stack t d r)
    (hd : d.Lawful) (hs : Sums d stack t d) (hw : t.walk.Climbs)
    (hsize : t.walk.uses.size ≤ d.count) (hst : Stacked t.walk stack)
    (hu : ∀ id, w.usesOf id = t.walk.usesOf id) (he : r.2.2.Extends e) (hl : e.Lawful) :
    Runs stack (t.along w) e (r.1, r.2.1.along w, e) := by
  induction h with
  | done t d => exact .done _ _
  | fail hstep =>
    -- What is pending is used by nodes that were walked along, so before the graph grew.
    have hc := fun use hu => Nat.lt_of_lt_of_le
      (hst.climbs _ List.mem_cons_self use hu).2 hsize
    exact .fail (step_replays hd hs.within hu (hs.sum_lt _ List.mem_cons_self) hc hstep he hl)
  | next hstep hruns ih =>
    have hc := fun use hu => Nat.lt_of_lt_of_le
      (hst.climbs _ List.mem_cons_self use hu).2 hsize
    have hs' := hs.step_ok hd hstep
    have hd' := hs'.grows.lawful hd
    have hwalk := (keeps_step hstep).walk_eq
    have hext := (hruns.grows hd' hs'.self).extends_ hd'
    refine .next (step_replays hd hs.within hu (hs.sum_lt _ List.mem_cons_self) hc hstep
      (hext.trans he) hl) (ih hd' hs'.self (hwalk ▸ hw) ?_ (hst.step hw (step_cases hstep)) ?_ he)
    · rw [hwalk]
      exact Nat.le_trans hsize (hs'.grows.extends_ hd).count_le
    · rwa [hwalk]

theorem adjoint_replays (hd : d.Lawful) (ht : t.Within d) (hw : t.walk.Climbs)
    (hsize : t.walk.uses.size ≤ d.count) (hw' : w.Climbs)
    (hu : ∀ id, w.usesOf id = t.walk.usesOf id) {node : NodeId} {o : Except Fault NodeId}
    (ha : t.adjoint node d = (o, t', d')) (he : d'.Extends e) (hl : e.Lawful) :
    (t.along w).adjoint node e = (o, t'.along w, e) := by
  have hfinds := finds_adjoint hw node d
  rw [ha] at hfinds
  -- The budgets of the two runs differ with the sizes of the graphs; where the runs end does not.
  refine (finds_adjoint hw' node e).eq ?_
  have hz := Dag.adds_lit hd Scalar.zero
  have hd₁ := hz.grows.lawful hd
  have hs := (sums_frame hd (.refl d) ht node).self
  have hruns : ∀ {o t' d'}, Runs [(t.frame node d).1] t (t.frame node d).2 (o, t', d') →
      d'.Extends e → Runs [((t.along w).frame node e).1] (t.along w) ((t.along w).frame node e).2
        (o, t'.along w, e) := by
    intro o t' d' h he
    have hr := h.replays hd₁ hs hw (Nat.le_trans hsize (hz.grows.extends_ hd).count_le)
      (stacked_frame hw node d) hu he hl
    rwa [frame_replays hd.wellFormed hu node (((h.grows hd₁ hs).extends_ hd₁).trans he) hl]
  cases hfinds with
  | known hk => exact .known (known?_replays hd hk he hl)
  | fail hm hne h => exact .fail hm hne (hruns h he)
  | sum hm hne h ha => exact .sum hm hne (hruns h he) ha

theorem adjoints_replays (hd : d.Lawful) (ht : t.Within d) (hw : t.walk.Climbs)
    (hsize : t.walk.uses.size ≤ d.count) (hw' : w.Climbs)
    (hu : ∀ id, w.usesOf id = t.walk.usesOf id) {nodes : List NodeId}
    {o : Except Fault (List NodeId)} (ha : adjoints nodes t d = (o, t', d')) (he : d'.Extends e)
    (hl : e.Lawful) : adjoints nodes (t.along w) e = (o, t'.along w, e) := by
  induction nodes generalizing t d o t' d' with
  | nil =>
    cases ha
    rfl
  | cons node nodes ih =>
    obtain ⟨hadds, ht₁⟩ := adjoint_adds hd ht node
    have hfinds := finds_adjoint hw node d
    rw [adjoints] at ha ⊢
    rcases hr : t.adjoint node d with ⟨o₁, t₁, d₁⟩
    rw [hr] at ha hadds ht₁ hfinds
    have hd₁ := hadds.grows.lawful hd
    have he₁ := hadds.grows.extends_ hd
    cases o₁ with
    | error fault =>
      cases ha
      simp only [adjoint_replays hd ht hw hsize hw' hu hr he hl]
    | ok first =>
      have hgrows := (adjoints_adds hd₁ ht₁ nodes).grows.extends_ hd₁
      dsimp only at ha
      rcases hrest : adjoints nodes t₁ d₁ with ⟨o₂, t₂, d₂⟩
      rw [hrest] at ha hgrows
      cases ha
      have hwalk : t₁.walk = t.walk := hfinds.keeps.walk_eq
      simp only [adjoint_replays hd ht hw hsize hw' hu hr (hgrows.trans he) hl]
      rw [ih hd₁ ht₁ (hwalk ▸ hw) (hwalk ▸ Nat.le_trans hsize he₁.count_le) (hwalk ▸ hu) hrest he]

/-- The adjoints over the walk from a node are found again, over the walk of the other graph. -/
theorem adjoints_start_replays (hd : d.Lawful) {first : NodeId} (hfirst : first < d.count)
    {root : NodeId} {nodes : List NodeId} {o : Except Fault (List NodeId)}
    (ha : adjoints nodes (start root (d.walk first)) d = (o, t', d')) (he : d'.Extends e)
    (hl : e.Lawful) :
    adjoints nodes (start root (e.walk first)) e = (o, t'.along (e.walk first), e) := by
  have hwithin := within_start root (d.walk first) d
  have hgrows := (adjoints_adds hd hwithin nodes).grows.extends_ hd
  rw [ha] at hgrows
  have he₀ := hgrows.trans he
  have hfirst' := he₀.lt_count hfirst
  have hcov := Dag.walk_covers hd.wellFormed hfirst
  have hcov' := Dag.walk_covers hl.wellFormed hfirst'
  obtain ⟨-, huses⟩ := Dag.walk_extends hd.wellFormed hl.wellFormed he₀ hfirst
  exact adjoints_replays hd hwithin (hcov.climbs hd.wellFormed hfirst) hcov.uses_size.le
    (hcov'.climbs hl.wellFormed hfirst') huses ha he hl

end Adjoints

namespace Dag

namespace Extends

theorem check (h : Extends d e) {id : NodeId} (hid : id < d.count) : e.check id = d.check id := by
  rw [check_of_lt hid, check_of_lt (h.lt_count hid)]

theorem checkVariable (h : Extends d e) {id : NodeId} (hid : id < d.count) :
    e.checkVariable id = d.checkVariable id := by
  rw [Dag.checkVariable, Dag.checkVariable, h.check hid, h.name? hid]

theorem checkBundle (h : Extends d e) {parts : Bundle}
    (hx : ∀ x ∈ parts.primal :: parts.partials ++ parts.vars, x < d.count) :
    e.checkBundle parts = d.checkBundle parts := by
  have hpartials : parts.partials.forM e.check = parts.partials.forM d.check :=
    forM_congr fun x hm => h.check (hx x (by simp [hm]))
  have hvars : parts.vars.forM e.checkVariable = parts.vars.forM d.checkVariable :=
    forM_congr fun x hm => h.checkVariable (hx x (by simp [hm]))
  rw [Dag.checkBundle, Dag.checkBundle, h.check (hx _ (by simp)), hpartials, hvars]

theorem checkRoot (h : Extends d e) (hd : d.WellFormed) (he : e.WellFormed) {root : NodeId}
    (hroot : root < d.count) : e.checkRoot root = d.checkRoot root := by
  obtain ⟨horder, -⟩ := walk_extends hd he h hroot
  have hany : ((e.walk root).order.any fun id => (e.label? id).any Label.isGradient) =
      (d.walk root).order.any fun id => (d.label? id).any Label.isGradient := by
    rw [horder, Bool.eq_iff_iff, Array.any_eq_true', Array.any_eq_true']
    refine exists_congr fun id => and_congr_right fun hid => ?_
    have hr := ((walk_covers hd hroot).mem_order_iff id).1 (Array.mem_toList_iff.2 hid)
    rw [h.label? (hr.lt_count hd hroot)]
  rw [Dag.checkRoot, Dag.checkRoot, h.check hroot]
  simp only [h.label? hroot, hany]

end Extends

namespace Bundle

theorem replays_build (h : d.Lawful) {parts : Bundle}
    (hx : ∀ x ∈ parts.primal :: parts.partials ++ parts.vars, x < d.count) :
    d.Replays parts.build := by
  intro e hext hl
  have he := ((build_adds h parts).grows.extends_ h).trans hext
  rw [build] at hext ⊢
  rw [build, he.checkBundle hx]
  cases hc : d.checkBundle parts with
  | error fault => rfl
  | ok =>
    simp only [hc] at hext
    simp only [replays_intern h.wellFormed parts.node e hext hl]

end Bundle

end Dag

/-- The gradient of a node is found again. -/
theorem replays_backward (h : d.Lawful) {root : NodeId} (hroot : root < d.count) :
    d.Replays (backward root) := by
  intro e hext hl
  have he := ((backward_adds h root).grows.extends_ h).trans hext
  have hvars : (e.walk root).freeVars = (d.walk root).freeVars :=
    Dag.freeVars_extends h hl he hroot
  rw [backward] at hext ⊢
  rw [backward, he.checkRoot h.wellFormed hl.wellFormed hroot]
  cases hc : d.checkRoot root with
  | error fault => rfl
  | ok =>
    have hadds := Adjoints.adjoints_adds h (Adjoints.within_start root (d.walk root) d)
      (d.walk root).freeVars
    rcases ha : Adjoints.adjoints (d.walk root).freeVars (.start root (d.walk root)) d
      with ⟨o, t, d₁⟩
    rw [ha] at hadds
    simp only [hc, ha] at hext
    cases o with
    | error fault =>
      simp only [hvars, ha, Adjoints.adjoints_start_replays h hroot ha hext hl]
    | ok partials =>
      have h₁ := hadds.grows.lawful h
      have he₁ := hadds.grows.extends_ h
      have hcov := Dag.walk_covers h.wellFormed hroot
      have hparts : ∀ x ∈ root :: partials ++ (d.walk root).freeVars, x < d₁.count := by
        intro x hx
        rcases List.mem_append.1 hx with hx | hx
        · rcases List.mem_cons.1 hx with rfl | hx
          · exact he₁.lt_count hroot
          · exact hadds.lt x ⟨partials, rfl, hx⟩
        · exact he₁.lt_count (hcov.freeVars_lt h.wellFormed hroot _ hx)
      have hext₁ := ((Dag.Bundle.build_adds h₁ _).grows.extends_ h₁).trans hext
      simp only [hvars, ha, Adjoints.adjoints_start_replays h hroot ha hext₁ hl,
        Dag.Bundle.replays_build h₁ hparts e hext hl]

end SharedExpr

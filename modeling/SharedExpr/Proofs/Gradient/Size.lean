import Mathlib
import SharedExpr.Proofs.Gradient.Signature
import SharedExpr.Proofs.Gradient.Termination

/-! The size of gradients: differentiation adds a bounded number of nodes for each operand slot
under the root. -/
namespace SharedExpr

variable {α : Type} [Scalar α] {d d' : Dag α}

namespace Dag

/-- One for a literal that is not in the graph yet. -/
def missing (d : Dag α) (value : α) : Nat :=
  if d.index[(⟨.lit (Scalar.normal value), []⟩ : Node α)]? = none then 1 else 0

/-- The size of a graph, where zero and one count whether they are there yet or not. Differentiation
asks for them again and again, and does not raise the level by that. -/
def level (d : Dag α) : Nat :=
  d.count + d.missing Scalar.zero + d.missing Scalar.one

theorem missing_le_one (d : Dag α) (value : α) : d.missing value ≤ 1 := by
  rw [missing]
  split
  · exact Nat.le_refl 1
  · exact Nat.zero_le 1

theorem count_le_level (d : Dag α) : d.count ≤ d.level := by
  rw [level, Nat.add_assoc]
  exact Nat.le_add_right _ _

theorem level_le_count_add_two (d : Dag α) : d.level ≤ d.count + 2 := by
  have hzero := d.missing_le_one Scalar.zero
  have hone := d.missing_le_one Scalar.one
  rw [level]
  omega

theorem missing_of_node? (hw : d.WellFormed) {value : α} {id : NodeId}
    (hn : d.node? id = some ⟨.lit (Scalar.normal value), []⟩) : d.missing value = 0 := by
  rw [missing, (hw.index_iff _ id).2 hn]
  simp

theorem missing_of_new (hw : d.WellFormed) {value : α}
    (hn : ∀ id, d.node? id ≠ some ⟨.lit (Scalar.normal value), []⟩) : d.missing value = 1 := by
  rw [missing, if_pos (index_of_new hw hn)]

theorem Extends.missing_le (he : d.Extends d') (hw : d.WellFormed) (hw' : d'.WellFormed)
    (value : α) : d'.missing value ≤ d.missing value := by
  by_cases hn : ∃ id, d.node? id = some ⟨.lit (Scalar.normal value), []⟩
  · obtain ⟨id, hid⟩ := hn
    rw [missing_of_node? hw' (he id _ hid)]
    exact Nat.zero_le _
  · rw [missing_of_new hw (not_exists.1 hn)]
    exact missing_le_one d' value

/-- The level rises at most by what is added. -/
theorem Grows.level_le (hg : d.Grows d') (h : d.Lawful) {n : Nat} (hc : d'.count ≤ d.count + n) :
    d'.level ≤ d.level + n := by
  have he := hg.extends_ h
  have hw' := (hg.lawful h).wellFormed
  have hzero := he.missing_le h.wellFormed hw' Scalar.zero
  have hone := he.missing_le h.wellFormed hw' Scalar.one
  simp only [level]
  omega

theorem count_lit_add_missing_le (hw : d.WellFormed) (value : α) :
    (Build.lit value d).2.count + (Build.lit value d).2.missing value ≤
      d.count + d.missing value := by
  by_cases hn : ∃ id, d.node? id = some ⟨.lit (Scalar.normal value), []⟩
  · obtain ⟨id, hid⟩ := hn
    have hsame : Build.lit value d = (id, d) := intern_of_node? hw hid
    rw [hsame]
  · have hw' : (Build.lit value d).2.WellFormed := hw.intern (by simp)
    have hc : (Build.lit value d).2.count ≤ d.count + 1 := count_intern_le hw _
    rw [missing_of_node? hw' (node?_intern hw _), missing_of_new hw (not_exists.1 hn)]
    exact hc

theorem level_zero_le (h : d.Lawful) : (Build.zero d).2.level ≤ d.level := by
  have ha := adds_lit h Scalar.zero
  have hone := (ha.grows.extends_ h).missing_le h.wellFormed (ha.grows.lawful h).wellFormed
    Scalar.one
  have hzero := count_lit_add_missing_le h.wellFormed Scalar.zero
  simp only [level, Build.zero]
  omega

theorem level_one_le (h : d.Lawful) : (Build.one d).2.level ≤ d.level := by
  have ha := adds_lit h Scalar.one
  have hzero := (ha.grows.extends_ h).missing_le h.wellFormed (ha.grows.lawful h).wellFormed
    Scalar.zero
  have hone := count_lit_add_missing_le h.wellFormed Scalar.one
  simp only [level, Build.one]
  omega

end Dag

theorem operandSeeds_level_le (h : d.Lawful) (first : Bool) :
    (operandSeeds first d).2.level ≤ d.level := by
  cases first with
  | true =>
    have hone := (Dag.adds_lit h Scalar.one).grows.lawful h
    exact Nat.le_trans (Dag.level_zero_le hone) (Dag.level_one_le h)
  | false =>
    have hzero := (Dag.adds_lit h Scalar.zero).grows.lawful h
    exact Nat.le_trans (Dag.level_one_le hzero) (Dag.level_zero_le h)

/-- The largest partial derivative is that of a quotient, of five operators and a literal. -/
theorem Derives.work_le {consumer : NodeId} {position : Nat} {e : Expr α}
    (hd : Derives d consumer position e d') : e.work ≤ 26 := by
  cases hd with
  | @unary op => cases op <;> simp [Unary.derivative, Expr.work]
  | @binary op _ _ _ _ _ _ _ _ he =>
    cases op with
    | add | sub | mul | div =>
      obtain rfl := Option.some.inj he
      simp [Expr.work]
    | pow =>
      rw [Binary.derivative?] at he
      split at he
      · obtain rfl := Option.some.inj he
        simp [Expr.work]
      · obtain ⟨-, ⟨⟩⟩ := Option.ite_none_right_eq_some.1 he
        simp [Expr.work]

theorem Derives.level_le (h : d.Lawful) {consumer : NodeId} {position : Nat} {e : Expr α}
    (hd : Derives d consumer position e d') : d'.level ≤ d.level := by
  cases hd with
  | unary => exact Nat.le_refl _
  | binary _ hseeds _ =>
    have hs := operandSeeds_level_le h (position == 0)
    rwa [hseeds] at hs

theorem derivative_level_le (h : d.Lawful) (consumer : NodeId) (position : Nat) :
    (derivative consumer position d).2.level ≤ d.level + 26 := by
  rcases derivative_cases h consumer position with ⟨e, d₁, hd, he⟩ | ⟨fault, d₁, hd, he⟩
  · have h₁ := (hd.grows h).lawful h
    have hrefs := hd.refs_lt h
    have hc := Nat.le_trans (Expr.count_build_le h₁ hrefs)
      (Nat.add_le_add_left hd.work_le d₁.count)
    have hb := (Expr.adds_build h₁ hrefs).grows.level_le h₁ hc
    have hs := hd.level_le h
    rw [he]
    exact Nat.le_trans hb (Nat.add_le_add_right hs 26)
  · rw [he]
    rcases hd with rfl | rfl
    · exact Nat.le_add_right _ _
    · exact Nat.le_add_right_of_le (operandSeeds_level_le h _)

namespace Adjoints

theorem accumulate_level_le (h : d.Lawful) {sum weight slope : NodeId} (hs : sum < d.count)
    (hw : weight < d.count) (hsl : slope < d.count) :
    (accumulate sum weight slope d).2.level ≤ d.level + 10 := by
  have hx : ∀ x ∈ (Application.binary .mul weight slope).operands, x < d.count :=
    Application.operands_lt hw hsl
  have hterm := Application.adds_build h hx
  have hmul := Application.count_build_le h hx
  rcases hr : (Application.binary .mul weight slope).build d with ⟨term, d₁⟩
  rw [hr] at hterm hmul
  have hy : ∀ x ∈ (Application.binary .add sum term).operands, x < d₁.count :=
    Application.operands_lt ((hterm.grows.extends_ h).lt_count hs) (hterm.lt _ rfl)
  have hadd := Application.count_build_le (hterm.grows.lawful h) hy
  refine (accumulate_adds h hs hw hsl).grows.level_le h ?_
  rw [accumulate, hr]
  exact Nat.le_trans hadd (Nat.add_le_add_right hmul 5)

theorem known?_level_le (h : d.Lawful) (t : Adjoints) (node : NodeId) :
    (t.known? node d).2.2.level ≤ d.level := by
  rcases known?_cases t node d with ⟨a, -, hk⟩ | ⟨-, -, hk⟩ | ⟨-, -, hk⟩
  · rw [hk]
  · rw [hk]
    exact Dag.level_one_le h
  · rw [hk]

variable {t t' : Adjoints} {top : Frame} {rest stack : List Frame}

/-- Adding a use, or failing to, raises the level by its partial derivative. -/
theorem derived_level_le (h : d.Lawful) (ht : t.Within d) {use : Use} {o : Option NodeId}
    {r : Except Fault NodeId} {d₁ d₂ : Dag α} (hk : t.known? use.consumer d = (o, t', d₁))
    (hv : derivative use.consumer use.position d₁ = (r, d₂)) : d₂.level ≤ d.level + 26 := by
  have hknown := known?_level_le h t use.consumer
  have hadds := known?_adds h ht use.consumer
  rw [hk] at hknown hadds
  have hderived := derivative_level_le (hadds.1.grows.lawful h) use.consumer use.position
  rw [hv] at hderived
  exact Nat.le_trans hderived (Nat.add_le_add_right hknown 26)

/-- The uses that are still to be added: those pending on the stack, and those of the nodes that
are neither summed up nor on the stack. -/
def owed (t : Adjoints) (stack : List Frame) : Nat :=
  (stack.map fun frame => frame.pending.length).sum +
    ∑ id ∈ t.fresh stack, (t.walk.usesOf id).size

/-- The uses that a summation leaves to be added, which are none if its failure ends it all. -/
def left {β : Type} (r : Except Fault β × Adjoints × Dag α) : Nat :=
  match r.1 with
  | .ok _ => r.2.1.owed []
  | .error _ => 0

theorem sum_usesOf_le (hk : Keeps t t') {stack' : List Frame}
    (hs : t'.fresh stack' ⊆ t.fresh stack) :
    ∑ id ∈ t'.fresh stack', (t'.walk.usesOf id).size ≤
      ∑ id ∈ t.fresh stack, (t.walk.usesOf id).size := by
  rw [hk.walk_eq]
  exact Finset.sum_le_sum_of_subset hs

/-- A step pays for the nodes it adds by a use that is no longer owed. -/
theorem Step.level_le (hd : d.Lawful) (hsums : Sums d (top :: rest) t d)
    (hs : Stacked t.walk (top :: rest)) (h : Step top rest t d stack t' d') :
    d'.level + 40 * t'.owed stack ≤ d.level + 40 * t.owed (top :: rest) := by
  cases h with
  | finish =>
    have hle := sum_usesOf_le (keeps_insert t top.node top.sum) (t.fresh_finish top rest)
    simp only [owed, List.map_cons, List.sum_cons]
    omega
  | @descend use pending hp hm =>
    -- The uses of the consumer are owed as before, now on the stack.
    have hzero := Dag.level_zero_le hd
    have hsum := Finset.add_sum_erase _ (fun id => (t.walk.usesOf id).size)
      (hs.mem_fresh (by simp [hp]) hm)
    simp only [owed, List.map_cons, List.sum_cons, fresh_cons _ _ (top :: rest),
      Array.length_toList]
    omega
  | @add use pending weight slope t₁ d₁ d₂ hp hk hv =>
    have hkeeps := keeps_known? hk
    have hle := sum_usesOf_le hkeeps
      (fresh_add hkeeps top pending (accumulate top.sum weight slope d₂).1 rest)
    have hw := weighed hd hsums.within (hsums.sum_lt top List.mem_cons_self) hk hv
    have hderived := derived_level_le hd hsums.within hk hv
    have hadded := accumulate_level_le (hw.grows.lawful hd) hw.sum_lt hw.weight_lt hw.slope_lt
    simp only [owed, List.map_cons, List.sum_cons, hp, List.length_cons]
    omega

theorem step_error_level_le (hd : d.Lawful) (ht : t.Within d) {fault : Fault}
    (hs : step top rest t d = (.error fault, t', d')) :
    d'.level ≤ d.level + 40 * t.owed (top :: rest) := by
  obtain ⟨use, pending, weight, d₁, hp, hk, hv⟩ := step_error hs
  have hderived := derived_level_le hd ht hk hv
  simp only [owed, List.map_cons, List.sum_cons, hp, List.length_cons]
  omega

theorem Runs.level_le {r : Except Fault Unit × Adjoints × Dag α} (h : Runs stack t d r)
    (hd : d.Lawful) (hsums : Sums d stack t d) (hw : t.walk.Climbs) (hs : Stacked t.walk stack) :
    r.2.2.level + 40 * left r ≤ d.level + 40 * t.owed stack := by
  induction h with
  | done => exact Nat.le_refl _
  | fail hstep => exact step_error_level_le hd hsums.within hstep
  | next hstep _ ih =>
    have hcases := step_cases hstep
    have hsums' := hsums.step_ok hd hstep
    exact Nat.le_trans
      (ih (hsums'.grows.lawful hd) hsums'.self ((keeps_step hstep).walk_eq ▸ hw)
        (hs.step hw hcases))
      (hcases.level_le hd hsums hs)

/-- The summation of a node starts out owing the uses of the node, and nothing that was not owed
before. -/
theorem Runs.level_le_of_frame {node : NodeId} {r : Except Fault Unit × Adjoints × Dag α}
    (h : Runs [(t.frame node d).1] t (t.frame node d).2 r) (hd : d.Lawful) (ht : t.Within d)
    (hw : t.walk.Climbs) (hm : t.memo[node]? = none) :
    r.2.2.level + 40 * left r ≤ d.level + 40 * t.owed [] := by
  have hsums := sums_frame hd (.refl d) ht node
  have hframe : (t.frame node d).2.level ≤ d.level := Dag.level_zero_le hd
  have howed : t.owed [(t.frame node d).1] ≤ t.owed [] := by
    have hfirst := sum_fresh_singleton_le hm (t.walk.usesOf node).toList (Build.zero d).1
      (f := fun id => (t.walk.usesOf id).size) fun id => Nat.le_refl _
    show t.owed [⟨node, (t.walk.usesOf node).toList, (Build.zero d).1⟩] ≤ t.owed []
    simpa [owed] using hfirst
  have hrun := h.level_le (hsums.grows.lawful hd) hsums.self hw (stacked_frame hw node d)
  omega

theorem Finds.level_le {node : NodeId} {r : Except Fault NodeId × Adjoints × Dag α}
    (h : Finds node t d r) (hd : d.Lawful) (ht : t.Within d) (hw : t.walk.Climbs) :
    r.2.2.level + 40 * left r ≤ d.level + 40 * t.owed [] := by
  cases h with
  | @known a t₁ d₁ hk =>
    have hkeeps := keeps_known? hk
    have hle := sum_usesOf_le hkeeps (fresh_subset hkeeps [] [] (by simp))
    have hknown : d₁.level ≤ d.level := by simpa [hk] using known?_level_le hd t node
    simp only [left, owed, List.map_nil, List.sum_nil]
    omega
  | fail hm _ h => exact h.level_le_of_frame hd ht hw hm
  | sum hm _ h => exact h.level_le_of_frame hd ht hw hm

theorem adjoints_level_le (hd : d.Lawful) (ht : t.Within d) (hw : t.walk.Climbs)
    (nodes : List NodeId) :
    (adjoints nodes t d).2.2.level + 40 * left (adjoints nodes t d) ≤
      d.level + 40 * t.owed [] := by
  induction nodes generalizing t d with
  | nil => exact Nat.le_refl _
  | cons node nodes ih =>
    obtain ⟨hadds, hwithin⟩ := adjoint_adds hd ht node
    have hfinds := finds_adjoint hw node d
    have hkeeps := hfinds.keeps
    have hfirst := hfinds.level_le hd ht hw
    rw [adjoints]
    rcases hr : t.adjoint node d with ⟨o, t₁, d₁⟩
    rw [hr] at hadds hwithin hkeeps hfirst
    cases o with
    | error fault => exact hfirst
    | ok first =>
      have hrest := ih (hadds.grows.lawful hd) hwithin (hkeeps.walk_eq ▸ hw)
      dsimp only
      rcases hr₂ : adjoints nodes t₁ d₁ with ⟨o, t₂, d₂⟩
      rw [hr₂] at hrest
      cases o <;> exact Nat.le_trans hrest hfirst

theorem owed_start_le (root : NodeId) (w : Walk) :
    (start root w).owed [] ≤ ∑ id ∈ Finset.range w.uses.size, (w.usesOf id).size := by
  simp only [owed, List.map_nil, List.sum_nil, Nat.zero_add]
  exact Finset.sum_le_sum_of_subset (Finset.filter_subset _ _)

end Adjoints

namespace Walk

theorem sum_length_usesAmong {n : Nat} {slots : List (NodeId × Use)}
    (hs : ∀ slot ∈ slots, slot.1 < n) :
    ∑ id ∈ Finset.range n, (usesAmong id slots).length = slots.length := by
  induction slots with
  | nil => simp [usesAmong]
  | cons slot slots ih =>
    obtain ⟨hslot, hslots⟩ := List.forall_mem_cons.1 hs
    have hcons : ∀ id, (usesAmong id (slot :: slots)).length =
        (if slot.1 = id then 1 else 0) + (usesAmong id slots).length := by
      intro id
      by_cases hid : slot.1 = id
      · simp [usesAmong, hid, Nat.add_comm]
      · simp [usesAmong, hid]
    simp only [hcons, Finset.sum_add_distrib, Finset.sum_ite_eq, Finset.mem_range, hslot, if_true,
      ih hslots, List.length_cons]
    omega

end Walk

namespace Dag

open Classical in
/-- The operand slots of the nodes under a root, each node taken once. -/
noncomputable def slotsUnder (d : Dag α) (root : NodeId) : Nat :=
  ∑ x ∈ (Finset.range d.count).filter (d.Reaches root), (d.operands x).length

variable {root : NodeId}

theorem slotsUnder_eq (hw : d.WellFormed) (hroot : root < d.count) :
    d.slotsUnder root = ((d.walk root).order.toList.map fun x => (d.operands x).length).sum := by
  classical
  have hcov := walk_covers hw hroot
  rw [slotsUnder, ← List.sum_toFinset _ hcov.nodup]
  refine Finset.sum_congr ?_ fun x _ => rfl
  ext x
  rw [Finset.mem_filter, Finset.mem_range, List.mem_toFinset, hcov.mem_order_iff]
  exact ⟨fun h => h.2, fun h => ⟨h.lt_count hw hroot, h⟩⟩

/-- The uses that a walk of a root records are the operand slots under it. -/
theorem sum_usesOf_eq_slotsUnder (hw : d.WellFormed) (hroot : root < d.count) :
    ∑ id ∈ Finset.range (d.walk root).uses.size, ((d.walk root).usesOf id).size =
      d.slotsUnder root := by
  have hcov := walk_covers hw hroot
  have hsize : ∀ id, ((d.walk root).usesOf id).size =
      (Walk.usesAmong id ((d.walk root).order.toList.flatMap (Walk.slots d))).length :=
    fun id => (hcov.uses_perm id).length_eq
  simp only [hsize]
  rw [hcov.uses_size, Walk.sum_length_usesAmong, slotsUnder_eq hw hroot, List.length_flatMap]
  · simp [Walk.slots]
  · intro slot hslot
    obtain ⟨c, hc, hslot⟩ := List.mem_flatMap.1 hslot
    obtain ⟨⟨x, position⟩, hx, rfl⟩ := List.mem_map.1 hslot
    have hlt := hw.operands_lt c x (List.fst_mem_of_mem_zipIdx hx)
    exact Nat.lt_trans hlt (hcov.order_lt hw hroot c hc)

theorem Bundle.count_build_le (hw : d.WellFormed) (parts : Bundle) :
    (parts.build d).2.count ≤ d.count + 1 := by
  rw [build]
  cases d.checkBundle parts with
  | error fault => exact Nat.le_succ _
  | ok => exact count_intern_le hw _

end Dag

theorem backward_count_le (h : d.Lawful) (root : NodeId) :
    (backward root d).2.count ≤ d.count + 40 * d.slotsUnder root + 3 := by
  rw [backward]
  cases hc : d.checkRoot root with
  | error fault =>
    dsimp only
    omega
  | ok =>
    obtain ⟨hroot, -⟩ := Dag.checkRoot_eq_ok hc
    have hcov := Dag.walk_covers h.wellFormed hroot
    have hwithin := Adjoints.within_start root (d.walk root) d
    have hadds := Adjoints.adjoints_adds h hwithin (d.walk root).freeVars
    have hlevel := Adjoints.adjoints_level_le h hwithin (hcov.climbs h.wellFormed hroot)
      (d.walk root).freeVars
    have howed := Adjoints.owed_start_le root (d.walk root)
    rw [Dag.sum_usesOf_eq_slotsUnder h.wellFormed hroot] at howed
    rcases hr : Adjoints.adjoints (d.walk root).freeVars (.start root (d.walk root)) d
      with ⟨o, t, d₁⟩
    rw [hr] at hadds hlevel
    -- Zero, one and the gradient itself are the nodes that no slot pays for.
    have hend : d₁.count + 1 ≤ d.count + 40 * d.slotsUnder root + 3 :=
      calc d₁.count + 1
        _ ≤ d₁.level + 1 := Nat.succ_le_succ d₁.count_le_level
        _ ≤ d.level + 40 * (Adjoints.start root (d.walk root)).owed [] + 1 :=
          Nat.succ_le_succ (Nat.le_of_add_right_le hlevel)
        _ ≤ d.level + 40 * d.slotsUnder root + 1 := by omega
        _ ≤ d.count + 2 + 40 * d.slotsUnder root + 1 := by
          have hstart := d.level_le_count_add_two
          omega
        _ = d.count + 40 * d.slotsUnder root + 3 := by omega
    cases o with
    | error fault =>
      simp only [hr]
      exact Nat.le_of_succ_le hend
    | ok partials =>
      simp only [hr]
      exact Nat.le_trans (Dag.Bundle.count_build_le (hadds.grows.lawful h).wellFormed _) hend

namespace Dag

/-- Gradients are of linear size. Whether it succeeds or fails, the differentiation of a root keeps
the nodes of the graph and adds at most forty for each operand slot under the root, and three. -/
theorem Reachable.backward_size {d : Dag α} (h : d.Reachable) (root : NodeId) :
    ∃ outcome d', (Command.backward root).run d = (some outcome, d') ∧ d.Extends d' ∧
      d'.count ≤ d.count + 40 * d.slotsUnder root + 3 := by
  rw [Command.run, Command.attempt_apply]
  exact ⟨_, _, rfl, (backward_adds h.lawful root).grows.extends_ h.lawful,
    backward_count_le h.lawful root⟩

/-- A product of two variables has two operand slots. -/
theorem product_backward_size :
    product.slotsUnder 2 = 2 ∧ ∃ outcome d', (Command.backward 2).run product = (some outcome, d') ∧
      product.Extends d' ∧ d'.count ≤ product.count + 83 := by
  have hroot : 2 < product.count := by
    have hc : product.count = 3 := by cbv
    omega
  have hslots : product.slotsUnder 2 = 2 := by
    rw [slotsUnder_eq reachable_product.lawful.wellFormed hroot]
    cbv
  obtain ⟨outcome, d', hrun, he, hle⟩ := reachable_product.backward_size 2
  rw [hslots] at hle
  exact ⟨hslots, outcome, d', hrun, he, hle⟩

end Dag

end SharedExpr

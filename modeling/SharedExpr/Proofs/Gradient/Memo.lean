import Mathlib
import SharedExpr.Proofs.Gradient.Outcome
import SharedExpr.Proofs.Gradient.Recursion
import SharedExpr.Proofs.Gradient.Summation
import SharedExpr.Proofs.Replay

/-! What is memoized while adjoints are found: complete sums only, and with a sum the adjoints of
all consumers on the way to the root. -/
namespace SharedExpr

variable {α : Type} [Scalar α] {d₀ d d' e : Dag α}

namespace Adjoints

/-- A sum over uses in order, from zero on, of the adjoint of each consumer times its derivative at
the use. The adjoint of the root is one, and that of another node the sum over all its uses. All
that it takes is in the graph already. -/
inductive Accumulated (d : Dag α) (root : NodeId) (w : Walk) : List Use → NodeId → Prop
  | zero {sum : NodeId} (hz : Build.zero d = (sum, d)) : Accumulated d root w [] sum
  | add {uses : List Use} {use : Use} {sum weight slope sum' : NodeId}
    (hs : Accumulated d root w uses sum)
    (hone : use.consumer = root → Build.one d = (weight, d))
    (hsum : use.consumer ≠ root → Accumulated d root w (w.usesOf use.consumer).toList weight)
    (hv : derivative use.consumer use.position d = (.ok slope, d))
    (ha : accumulate sum weight slope d = (sum', d)) : Accumulated d root w (uses ++ [use]) sum'

/-- An adjoint in which no use is left out: one for the root, or the sum over all uses. -/
structure Completed (d : Dag α) (root : NodeId) (w : Walk) (node a : NodeId) : Prop where
  one : node = root → Build.one d = (a, d)
  sum : node ≠ root → Accumulated d root w (w.usesOf node).toList a

variable {root : NodeId} {w : Walk} {uses : List Use} {node sum a : NodeId}

theorem lt_of_lit (h : d.Lawful) {value : α} (ha : Build.lit value d = (a, d)) : a < d.count := by
  have hadds := Dag.adds_lit h value
  rw [ha] at hadds
  exact hadds.lt a rfl

theorem of_derivative (h : d.Lawful) {use : Use} {slope : NodeId}
    (hv : derivative use.consumer use.position d = (.ok slope, d')) :
    use.consumer < d.count ∧ d.Grows d' ∧ slope < d'.count := by
  have hadds := derivative_adds h use.consumer use.position
  rw [hv] at hadds
  refine ⟨?_, hadds.grows, hadds.lt slope rfl⟩
  by_contra hc
  have hn : d.node? use.consumer = none := by
    cases hn : d.node? use.consumer with
    | none => rfl
    | some node => exact absurd (Dag.lt_of_node? hn) hc
  rw [derivative, hn] at hv
  cases hv

theorem Accumulated.lt (h : d.Lawful) (hs : Accumulated d root w uses sum) : sum < d.count := by
  induction hs with
  | zero hz => exact lt_of_lit h hz
  | @add uses use sum weight slope sum' _ hone _ hv ha ihs ihsum =>
    have hweight : weight < d.count := by
      by_cases hr : use.consumer = root
      · exact lt_of_lit h (hone hr)
      · exact ihsum hr
    have hadds := accumulate_adds h ihs hweight (of_derivative h hv).2.2
    rw [ha] at hadds
    exact hadds.lt sum' rfl

theorem Completed.lt (h : d.Lawful) (ha : Completed d root w node a) : a < d.count := by
  by_cases hr : node = root
  · exact lt_of_lit h (ha.one hr)
  · exact (ha.sum hr).lt h

theorem Accumulated.grow (h : d.Lawful) (hg : d.Grows d') (hs : Accumulated d root w uses sum) :
    Accumulated d' root w uses sum := by
  have he := hg.extends_ h
  have hl := hg.lawful h
  induction hs with
  | zero hz => exact .zero ((Dag.replays_lit h.wellFormed _).again hz he hl)
  | @add uses use sum weight slope sum' hs hone hsum hv ha ihs ihsum =>
    have hcompleted : Completed d root w use.consumer weight := ⟨hone, hsum⟩
    obtain ⟨hconsumer, -, hslope⟩ := of_derivative h hv
    exact .add ihs (fun hr => (Dag.replays_lit h.wellFormed _).again (hone hr) he hl) ihsum
      ((replays_derivative h hconsumer use.position).again hv he hl)
      ((replays_accumulate h (hs.lt h) (hcompleted.lt h) hslope).again ha he hl)

theorem Completed.grow (h : d.Lawful) (hg : d.Grows d') (ha : Completed d root w node a) :
    Completed d' root w node a :=
  ⟨fun hr => (Dag.replays_lit h.wellFormed _).again (ha.one hr) (hg.extends_ h) (hg.lawful h),
    fun hr => (ha.sum hr).grow h hg⟩

/-- The steps of a summation lead from sums over some uses to complete ones. -/
theorem reading_completed (h₀ : d₀.Lawful) (root : NodeId) (w : Walk) :
    Reading d₀ root w (fun uses sum d => Accumulated d root w uses sum)
      (fun node a d => Completed d root w node a) where
  grow_sum hg hg' _ hs := hs.grow (hg.lawful h₀) hg'
  grow_adjoint hg hg' _ ha := ha.grow (hg.lawful h₀) hg'
  seed hg := by
    have hd := hg.lawful h₀
    have hone := Dag.adds_lit hd Scalar.one
    exact ⟨fun _ => (Dag.replays_lit hd.wellFormed _).settled (hone.grows.lawful hd),
      fun hr => absurd rfl hr⟩
  zero hg := by
    have hd := hg.lawful h₀
    have hzero := Dag.adds_lit hd Scalar.zero
    exact .zero ((Dag.replays_lit hd.wellFormed _).settled (hzero.grows.lawful hd))
  add := by
    intro node done use id weight slope d d' hg _ hid hwlt hs hweight hv
    have hd := hg.lawful h₀
    obtain ⟨hconsumer, hg₁, hslope⟩ := of_derivative hd hv
    have hd₁ := hg₁.lawful hd
    have he₁ := hg₁.extends_ hd
    have hid₁ := he₁.lt_count hid
    have hwlt₁ := he₁.lt_count hwlt
    have hadds := accumulate_adds hd₁ hid₁ hwlt₁ hslope
    have hg₂ := hg₁.trans hadds.grows
    have hd₂ := hadds.grows.lawful hd₁
    have hweight₂ := hweight.grow hd hg₂
    have hv₂ := replays_derivative hd hconsumer use.position (accumulate id weight slope d').2
    rw [hv] at hv₂
    exact .add (hs.grow hd hg₂) hweight₂.one hweight₂.sum (hv₂ (hadds.grows.extends_ hd₁) hd₂)
      ((replays_accumulate hd₁ hid₁ hwlt₁ hslope).settled hd₂)
  finish hne hs := ⟨fun hr => absurd hr hne, fun _ => hs⟩

variable {t t' : Adjoints} {top : Frame} {rest stack : List Frame}
  {r : Except Fault Unit × Adjoints × Dag α}

theorem Keeps.isSome (h : Keeps t t') {id : NodeId} (hid : (t.memo[id]?).isSome) :
    (t'.memo[id]?).isSome := by
  rw [Option.isSome_iff_ne_none] at hid ⊢
  exact fun hn => hid (h.memo id hn)

/-- A node of the memo has its consumers there, and a node on the stack those of its uses that are
no longer pending. -/
structure Closed (t : Adjoints) (stack : List Frame) : Prop where
  memo : ∀ node : NodeId, (t.memo[node]?).isSome → node ≠ t.root →
    ∀ use ∈ (t.walk.usesOf node).toList, (t.memo[use.consumer]?).isSome
  stack : ∀ frame ∈ stack, ∀ use ∈ (t.walk.usesOf frame.node).toList,
    use ∈ frame.pending ∨ (t.memo[use.consumer]?).isSome

theorem Closed.tail (h : Closed t (top :: rest)) : Closed t rest :=
  ⟨h.memo, fun frame hf => h.stack frame (List.mem_cons_of_mem _ hf)⟩

theorem Closed.insert (h : Closed t stack) (a : NodeId)
    (hnode : node ≠ t.root → ∀ use ∈ (t.walk.usesOf node).toList, (t.memo[use.consumer]?).isSome) :
    Closed (t.insert node a) stack := by
  have hk := keeps_insert t node a
  refine ⟨fun id hid hne use hu => hk.isSome ?_,
    fun frame hf use hu => (h.stack frame hf use hu).imp_right hk.isSome⟩
  rw [memo_insert] at hid
  split at hid
  · next heq => exact hnode (heq ▸ hne) use (heq ▸ hu)
  · exact h.memo id hid hne use hu

theorem Closed.known? (h : Closed t stack) {o : Option NodeId}
    (hk : t.known? node d = (o, t', d')) :
    Closed t' stack ∧ (o.isSome → (t'.memo[node]?).isSome) := by
  rcases known?_cases t node d with ⟨a, hm, hk'⟩ | ⟨-, hr, hk'⟩ | ⟨-, -, hk'⟩
  · cases hk'.symm.trans hk
    exact ⟨h, fun _ => by simp [hm]⟩
  · cases hk'.symm.trans hk
    exact ⟨h.insert _ fun hne => absurd hr hne, fun _ => by simp [memo_insert]⟩
  · cases hk'.symm.trans hk
    exact ⟨h, fun hs => by cases hs⟩

theorem Closed.step (h : Closed t (top :: rest)) (hs : Step top rest t d stack t' d') :
    Closed t' stack := by
  cases hs with
  | finish hp =>
    refine h.tail.insert top.sum fun _ use hu => ?_
    have hdone := h.stack top List.mem_cons_self use hu
    rw [hp] at hdone
    exact hdone.resolve_left List.not_mem_nil
  | descend =>
    refine ⟨h.memo, fun frame hf use hu => ?_⟩
    rcases List.mem_cons.1 hf with rfl | hf
    · exact .inl hu
    · exact h.stack frame hf use hu
  | @add use pending weight slope _ d₁ d₂ hp hk hv =>
    obtain ⟨hc, hsome⟩ := h.known? hk
    refine ⟨hc.memo, fun frame hf other hu => ?_⟩
    rcases List.mem_cons.1 hf with rfl | hf
    · rcases hc.stack top List.mem_cons_self other hu with hm | hm
      · rw [hp] at hm
        rcases List.mem_cons.1 hm with rfl | hm
        · exact .inr (hsome rfl)
        · exact .inl hm
      · exact .inr hm
    · exact hc.stack frame (List.mem_cons_of_mem _ hf) other hu

/-- The consumers of a node that are on the way to the root, the nearest first. -/
def Upstream (root : NodeId) (w : Walk) : NodeId → NodeId → Prop :=
  Relation.ReflTransGen fun node consumer =>
    node ≠ root ∧ ∃ use ∈ (w.usesOf node).toList, use.consumer = consumer

theorem Closed.upstream (h : Closed t stack) {consumer : NodeId}
    (hn : (t.memo[node]?).isSome) (hu : Upstream t.root t.walk node consumer) :
    (t.memo[consumer]?).isSome := by
  induction hu with
  | refl => exact hn
  | tail _ hstep ih =>
    obtain ⟨hne, use, huse, rfl⟩ := hstep
    exact h.memo _ ih hne use huse

/-- The summations on a stack and the adjoints known, at any time of the search for adjoints. -/
structure Sound (d₀ : Dag α) (root : NodeId) (w : Walk) (stack : List Frame) (t : Adjoints)
    (d : Dag α) : Prop where
  known : Known d₀ root w (fun node a d => Completed d root w node a) t d
  reads : ∀ frame ∈ stack, frame.Reads w root (fun uses sum d => Accumulated d root w uses sum) d
  closed : Closed t stack

namespace Sound

theorem step_ok (h₀ : d₀.Lawful) (h : Sound d₀ root w (top :: rest) t d)
    (hs : step top rest t d = (.ok stack, t', d')) : Sound d₀ root w stack t' d' := by
  obtain ⟨hknown, hreads⟩ := step_reads (reading_completed h₀ root w) h₀ h.known h.reads hs
  exact ⟨hknown, hreads, h.closed.step (step_cases hs)⟩

theorem step_error (h₀ : d₀.Lawful) (h : Sound d₀ root w (top :: rest) t d) {fault : Fault}
    (hs : step top rest t d = (.error fault, t', d')) : Sound d₀ root w [] t' d' := by
  obtain ⟨use, pending, weight, d₁, -, hk, hv⟩ := Adjoints.step_error hs
  have hr := reading_completed h₀ root w
  obtain ⟨-, hknown, -, -⟩ := known?_reads hr h₀ h.known hk
  have hslope := derivative_adds (hknown.grows.lawful h₀) use.consumer use.position
  rw [hv] at hslope
  obtain ⟨hc, -⟩ := h.closed.known? hk
  exact ⟨hknown.grow hr h₀ hslope.grows, by simp, hc.memo, by simp⟩

theorem runs (h₀ : d₀.Lawful) (h : Sound d₀ root w stack t d) (hruns : Runs stack t d r) :
    Sound d₀ root w [] r.2.1 r.2.2 := by
  induction hruns with
  | done => exact h
  | fail hs => exact h.step_error h₀ hs
  | next hs _ ih => exact ih (h.step_ok h₀ hs)

theorem frame (h₀ : d₀.Lawful) (h : Sound d₀ root w [] t d) (hne : node ≠ root) :
    Sound d₀ root w [(t.frame node d).1] t (t.frame node d).2 := by
  have hr := reading_completed h₀ root w
  have hd := h.known.grows.lawful h₀
  have hz : d.Adds ((Build.zero d).1 = ·) (Build.zero d).2 := Dag.adds_lit hd Scalar.zero
  refine ⟨h.known.grow hr h₀ hz.grows, List.forall_mem_singleton.2 ⟨hz.lt _ rfl, hne, [], ?_, ?_⟩,
    h.closed.memo, List.forall_mem_singleton.2 fun use hu => .inl hu⟩
  · rw [← h.known.walk_eq]
    rfl
  · exact hr.zero h.known.grows

theorem finds (h₀ : d₀.Lawful) (h : Sound d₀ root w [] t d)
    {r : Except Fault NodeId × Adjoints × Dag α} (hf : Finds node t d r) :
    Sound d₀ root w [] r.2.1 r.2.2 := by
  cases hf with
  | known hk =>
    obtain ⟨-, hknown, -, -⟩ := known?_reads (reading_completed h₀ root w) h₀ h.known hk
    exact ⟨hknown, by simp, (h.closed.known? hk).1⟩
  | fail _ hne hruns | sum _ hne hruns =>
    exact (h.frame h₀ (h.known.root_eq ▸ hne)).runs h₀ hruns

theorem grow (h₀ : d₀.Lawful) (h : Sound d₀ root w [] t d) (hg : d.Grows d') :
    Sound d₀ root w [] t d' :=
  ⟨h.known.grow (reading_completed h₀ root w) h₀ hg, by simp, h.closed⟩

end Sound

/-- The stacks that a stack of summations leads to, with the adjoints known and the graph then. -/
inductive Visits (stack : List Frame) (t : Adjoints) (d : Dag α) :
    List Frame → Adjoints → Dag α → Prop
  | refl : Visits stack t d stack t d
  | step {top : Frame} {rest stack' : List Frame} {t₁ t' : Adjoints} {d₁ d' : Dag α}
    (h : Visits stack t d (top :: rest) t₁ d₁)
    (hs : step top rest t₁ d₁ = (.ok stack', t', d')) : Visits stack t d stack' t' d'

theorem Sound.visits (h₀ : d₀.Lawful) {stack' : List Frame} (h : Sound d₀ root w stack t d)
    (hv : Visits stack t d stack' t' d') : Sound d₀ root w stack' t' d' := by
  induction hv with
  | refl => exact h
  | step _ hs ih => exact ih.step_ok h₀ hs

/-- The adjoints known after calls for those of any nodes, some of which may have failed, over the
walk from a node, and the graph by then. Between the calls other operations may have added nodes. -/
inductive Session (d₀ : Dag α) (root first : NodeId) : Adjoints → Dag α → Prop
  | start : Session d₀ root first (start root (d₀.walk first)) d₀
  | extend {t : Adjoints} {d d' : Dag α} (h : Session d₀ root first t d) (hb : d.Becomes d') :
    Session d₀ root first t d'
  | call {t t' : Adjoints} {d d' : Dag α} {node : NodeId} {o : Except Fault NodeId}
    (h : Session d₀ root first t d) (ha : t.adjoint node d = (o, t', d')) :
    Session d₀ root first t' d'

theorem Session.sound (h₀ : d₀.Lawful) {first : NodeId} (hfirst : first < d₀.count)
    (h : Session d₀ root first t d) : Sound d₀ root (d₀.walk first) [] t d := by
  have hw := (Dag.walk_covers h₀.wellFormed hfirst).climbs h₀.wellFormed hfirst
  induction h with
  | start => exact ⟨known_start _ root _ d₀, by simp, by simp [Adjoints.start], by simp⟩
  | extend _ hb ih => exact ih.grow h₀ (hb.grows (ih.known.grows.lawful h₀))
  | @call t t' d d' node o _ ha ih =>
    have hf := finds_adjoint (ih.known.walk_eq ▸ hw) node d
    rw [ha] at hf
    exact ih.finds h₀ hf

theorem Finds.memo {d' : Dag α} (h : Finds node t d (.ok a, t', d')) :
    t'.memo[node]? = some a := by
  cases h with
  | known hk =>
    rcases known?_cases t node d with ⟨b, hm, hk'⟩ | ⟨-, -, hk'⟩ | ⟨-, -, hk'⟩
    · cases hk'.symm.trans hk
      exact hm
    · cases hk'.symm.trans hk
      rw [memo_insert, if_pos rfl]
    · cases hk'.symm.trans hk
  | sum _ _ _ ha => exact ha

end Adjoints

namespace Dag

open Adjoints

/-- Adjoints over one walk are those of the recursion, with the same failures, the same memo and the
same graph, whatever was asked for before, whether it failed, and whatever else was added to the
graph. Without a bound on its steps the stack of summations comes to the same end. All that is
memoized is complete, also while summations are under way and after a failure, and an adjoint that
is found is memoized with those of all consumers on the way to the root. -/
theorem Reachable.adjoint_recursion (h : d₀.Reachable) {root first : NodeId}
    (hfirst : first < d₀.count) {t : Adjoints} {d : Dag α} (hs : Session d₀ root first t d) :
    t.root = root ∧ t.walk = d₀.walk first ∧
    (∀ node a : NodeId, t.memo[node]? = some a → Completed d root (d₀.walk first) node a) ∧
    ∃ hw : (d₀.walk first).Climbs, ∀ node,
      Finds node t d (t.adjoint node d) ∧
      t.adjoint node d = recursive (d₀.walk first) hw node t d ∧
      (t.memo[node]? = none → node ≠ root → ∀ stack t' d',
        Visits [(t.frame node d).1] t (t.frame node d).2 stack t' d' →
        ∀ x a : NodeId, t'.memo[x]? = some a → Completed d' root (d₀.walk first) x a) ∧
      ∀ a t' d', t.adjoint node d = (.ok a, t', d') → t'.memo[node]? = some a ∧
        ∀ consumer, Upstream root (d₀.walk first) node consumer → (t'.memo[consumer]?).isSome := by
  have h₀ := h.lawful
  have hsound := hs.sound h₀ hfirst
  have hroot := hsound.known.root_eq
  have hwalk := hsound.known.walk_eq
  have hw : (d₀.walk first).Climbs :=
    (walk_covers h₀.wellFormed hfirst).climbs h₀.wellFormed hfirst
  refine ⟨hroot, hwalk, hsound.known.adjoint, hw, fun node => ?_⟩
  have hfinds := finds_adjoint (hwalk ▸ hw) node d
  refine ⟨hfinds, ?_, fun _ hne stack t' d' hv => ?_, fun a t' d' ha => ?_⟩
  · rw [adjoint_eq_recursive (hwalk ▸ hw)]
    congr 1
  · exact ((hsound.frame h₀ hne).visits h₀ hv).known.adjoint
  · rw [ha] at hfinds
    have hmemo := hfinds.memo
    have hsound' := hsound.finds h₀ hfinds
    have hroot' : t'.root = root := hsound'.known.root_eq
    have hwalk' : t'.walk = d₀.walk first := hsound'.known.walk_eq
    refine ⟨hmemo, fun consumer hu => ?_⟩
    rw [← hroot', ← hwalk'] at hu
    exact hsound'.closed.upstream (Option.isSome_of_eq_some hmemo) hu

/-- The adjoint of the exponent of `x ^ y` is not found, for which the root is memoized. After that
the adjoint of the base is found as by recursion: it is `y * x ^ (y + -1)`. -/
theorem power_adjoint_recursion : ∃ (hw : (power.walk 2).Climbs) (t t' : Adjoints)
    (d d' : Dag Double),
    (Adjoints.start 2 (power.walk 2)).adjoint 1 power =
      (.error (.unsupportedDerivative 2 exponentReason), t, d) ∧
    t.memo[2]? = some 4 ∧ Completed d 2 (power.walk 2) 2 4 ∧
    recursive (power.walk 2) hw 0 t d = (.ok 8, t', d') ∧
    t'.memo[0]? = some 8 ∧ (t'.memo[2]?).isSome := by
  have hcount : power.count = 3 := by cbv
  have huses : (power.walk 2).usesOf 0 = #[⟨2, 0⟩] := by cbv
  have hfail : ((Adjoints.start 2 (power.walk 2)).adjoint 1 power).1 =
      .error (.unsupportedDerivative 2 exponentReason) := by cbv
  have hmemo : (((Adjoints.start 2 (power.walk 2)).adjoint 1 power).2.1.memo[2]?) = some 4 := by
    cbv
  have hfound : (((Adjoints.start 2 (power.walk 2)).adjoint 1 power).2.1.adjoint 0
      ((Adjoints.start 2 (power.walk 2)).adjoint 1 power).2.2).1 = .ok 8 := by cbv
  rcases hr : (Adjoints.start 2 (power.walk 2)).adjoint 1 power with ⟨o, t, d⟩
  rw [hr] at hfail hmemo hfound
  obtain rfl : o = .error (.unsupportedDerivative 2 exponentReason) := hfail
  obtain ⟨-, -, hcompleted, hw, hadjoint⟩ := reachable_power.adjoint_recursion
    (by rw [hcount]; decide) (.call (.start : Session power 2 2 _ _) hr)
  obtain ⟨-, hrecursive, -, hok⟩ := hadjoint 0
  have hup : Upstream 2 (power.walk 2) 0 2 := .single ⟨by decide, ⟨2, 0⟩, by simp [huses], rfl⟩
  rcases ha : t.adjoint 0 d with ⟨o, t', d'⟩
  rw [ha] at hfound hrecursive
  obtain rfl : o = .ok 8 := hfound
  obtain ⟨hbase, hconsumers⟩ := hok 8 t' d' ha
  exact ⟨hw, t, t', d, d', rfl, hmemo, hcompleted 2 4 hmemo, hrecursive.symm, hbase,
    hconsumers 2 hup⟩

end Dag

end SharedExpr

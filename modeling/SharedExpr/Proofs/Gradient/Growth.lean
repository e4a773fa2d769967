import SharedExpr.Gradient.Reverse
import SharedExpr.Proofs.Expr.Construction

/-! Differentiation only adds nodes that may be added, whether it succeeds or fails. -/
namespace SharedExpr

variable {α : Type} [Scalar α] {d : Dag α}

theorem operandSeeds_adds (h : d.Lawful) (first : Bool) :
    d.Adds (fun id => id = (operandSeeds first d).1.1 ∨ id = (operandSeeds first d).1.2)
      (operandSeeds first d).2 := by
  have hstep : ∀ a b : α,
      d.Adds (fun id => id = (Build.lit a d).1 ∨ id = (Build.lit b (Build.lit a d).2).1)
        (Build.lit b (Build.lit a d).2).2 := by
    intro a b
    have ha := Dag.adds_lit h a
    have h₁ := ha.grows.lawful h
    have hb := Dag.adds_lit h₁ b
    refine ⟨ha.grows.trans hb.grows, ?_⟩
    rintro id (rfl | rfl)
    · exact (hb.grows.extends_ h₁).lt_count (ha.lt _ rfl)
    · exact hb.lt _ rfl
  cases first with
  | true => exact hstep Scalar.one Scalar.zero
  | false => exact hstep Scalar.zero Scalar.one

theorem Binary.derivative?_refs {op : Binary} {literalExponent first : Bool} {x y dx dy : NodeId}
    {e : Expr α} (h : op.derivative? literalExponent x y dx dy first = some e) :
    ∀ id ∈ e.refs, id = x ∨ id = y ∨ id = dx ∨ id = dy := by
  cases op with
  | add | sub | mul | div =>
    obtain rfl := Option.some.inj h
    simp [Expr.refs]
  | pow =>
    rw [derivative?] at h
    split at h
    · obtain rfl := Option.some.inj h
      simp [Expr.refs]
    · obtain ⟨-, ⟨⟩⟩ := Option.ite_none_right_eq_some.1 h
      simp [Expr.refs]

theorem Unary.derivative_refs (op : Unary) (node x : NodeId) :
    ∀ id ∈ (op.derivative node x : Expr α).refs, id = node ∨ id = x := by
  cases op <;> simp [derivative, Expr.refs]

/-- The expression that is built for a partial derivative, and the graph that it is built in. -/
inductive Derives (d : Dag α) (consumer : NodeId) (position : Nat) : Expr α → Dag α → Prop
  | unary {op : Unary} {x : NodeId} (hn : d.node? consumer = some ⟨.unary op, [x]⟩) :
    Derives d consumer position (op.derivative consumer x) d
  | binary {op : Binary} {x y dx dy : NodeId} {d₁ : Dag α} {e : Expr α}
    (hn : d.node? consumer = some ⟨.binary op, [x, y]⟩)
    (hseeds : operandSeeds (position == 0) d = ((dx, dy), d₁))
    (he : op.derivative? (d₁.isLiteral y) x y dx dy (position == 0) = some e) :
    Derives d consumer position e d₁

theorem Derives.grows (h : d.Lawful) {consumer : NodeId} {position : Nat} {e : Expr α} {d₁ : Dag α}
    (hd : Derives d consumer position e d₁) : d.Grows d₁ := by
  cases hd with
  | unary => exact .refl d
  | binary _ hseeds _ =>
    have hg := (operandSeeds_adds h (position == 0)).grows
    rw [hseeds] at hg
    exact hg

theorem Derives.refs_lt (h : d.Lawful) {consumer : NodeId} {position : Nat} {e : Expr α}
    {d₁ : Dag α} (hd : Derives d consumer position e d₁) : ∀ id ∈ e.refs, id < d₁.count := by
  intro id hid
  cases hd with
  | @unary op x hn =>
    rcases op.derivative_refs consumer x id hid with rfl | rfl
    · exact Dag.lt_of_node? hn
    · exact h.wellFormed.lt_of_mem_operands hn (List.mem_singleton_self _)
  | @binary op x y dx dy _ _ hn hseeds he =>
    have hs := operandSeeds_adds h (position == 0)
    rw [hseeds] at hs
    have hx : ∀ z ∈ [x, y], z < d₁.count := fun z hz =>
      (hs.grows.extends_ h).lt_count (h.wellFormed.lt_of_mem_operands hn hz)
    rcases Binary.derivative?_refs he id hid with rfl | rfl | rfl | rfl
    · exact hx id (by simp)
    · exact hx id (by simp)
    · exact hs.lt id (Or.inl rfl)
    · exact hs.lt id (Or.inr rfl)

/-- A partial derivative is built, or there is none and at most its seeds were added. -/
theorem derivative_cases (h : d.Lawful) (consumer : NodeId) (position : Nat) :
    (∃ e d₁, Derives d consumer position e d₁ ∧
      derivative consumer position d = (.ok (e.build d₁).1, (e.build d₁).2)) ∨
    ∃ fault d₁, (d₁ = d ∨ d₁ = (operandSeeds (position == 0) d).2) ∧
      derivative consumer position d = (.error fault, d₁) := by
  cases hn : d.node? consumer with
  | none =>
    simp only [derivative, hn]
    exact Or.inr ⟨_, d, Or.inl rfl, rfl⟩
  | some node =>
    obtain ⟨label, operands⟩ := node
    cases h.admits hn with
    | lit | var | gradient =>
      simp only [derivative, hn]
      exact Or.inr ⟨_, d, Or.inl rfl, rfl⟩
    | unary op hx hl =>
      simp only [derivative, hn]
      exact Or.inl ⟨_, d, .unary hn, rfl⟩
    | @binary op x y hx hy hl =>
      rcases hseeds : operandSeeds (position == 0) d with ⟨⟨dx, dy⟩, d₁⟩
      simp only [derivative, hn, hseeds]
      cases he : (op.derivative? (d₁.isLiteral y) x y dx dy (position == 0) : Option (Expr α)) with
      | none => exact Or.inr ⟨_, d₁, Or.inr rfl, rfl⟩
      | some e => exact Or.inl ⟨e, d₁, .binary hn hseeds he, rfl⟩

theorem derivative_eq_ok (h : d.Lawful) {consumer slope : NodeId} {position : Nat} {d' : Dag α}
    (hs : derivative consumer position d = (.ok slope, d')) :
    ∃ e d₁, Derives d consumer position e d₁ ∧ e.build d₁ = (slope, d') := by
  rcases derivative_cases h consumer position with ⟨e, d₁, hd, he⟩ | ⟨fault, d₁, -, he⟩
  · cases hs.symm.trans he
    exact ⟨e, d₁, hd, rfl⟩
  · cases hs.symm.trans he

theorem derivative_adds (h : d.Lawful) (consumer : NodeId) (position : Nat) :
    d.Adds ((derivative consumer position d).1 = .ok ·) (derivative consumer position d).2 := by
  rcases derivative_cases h consumer position with ⟨e, d₁, hd, he⟩ | ⟨fault, d₁, hd, he⟩
  · have hg := hd.grows h
    have ha := Expr.adds_build (hg.lawful h) (hd.refs_lt h)
    rw [he]
    exact ⟨hg.trans ha.grows, fun id hid => ha.lt id (Except.ok.inj hid)⟩
  · rw [he]
    refine ⟨?_, fun id hid => by cases hid⟩
    rcases hd with rfl | rfl
    · exact .refl d₁
    · exact (operandSeeds_adds h (position == 0)).grows

namespace Adjoints

def accumulate (sum weight slope : NodeId) : Build α NodeId := fun d =>
  let term := (Application.binary .mul weight slope).build d
  (Application.binary .add sum term.1).build term.2

def step (top : Frame) (rest : List Frame) (t : Adjoints) (d : Dag α) :
    Except Fault (List Frame) × Adjoints × Dag α :=
  match top.pending with
  | [] => (.ok rest, t.insert top.node top.sum, d)
  | use :: pending =>
    match t.known? use.consumer d with
    | (none, t, d) =>
      (.ok ((t.frame use.consumer d).1 :: top :: rest), t, (t.frame use.consumer d).2)
    | (some weight, t, d) =>
      match derivative use.consumer use.position d with
      | (.error fault, d) => (.error fault, t, d)
      | (.ok slope, d) =>
        let sum := accumulate top.sum weight slope d
        (.ok ({ top with pending, sum := sum.1 } :: rest), t, sum.2)

theorem run_succ_cons (steps : Nat) (top : Frame) (rest : List Frame) (t : Adjoints) (d : Dag α) :
    run (steps + 1) (top :: rest) t d =
      match step top rest t d with
      | (.ok stack, t, d) => run steps stack t d
      | (.error fault, t, d) => (.error fault, t, d) := by
  rw [run, step]
  cases top.pending with
  | nil => rfl
  | cons use pending =>
    dsimp only
    rcases t.known? use.consumer d with ⟨weight, t₁, d₁⟩
    cases weight with
    | none => rfl
    | some weight =>
      dsimp only
      rcases (derivative use.consumer use.position d₁ : Except Fault NodeId × Dag α)
        with ⟨slope, d₂⟩
      cases slope <;> rfl

/-- What every step keeps holds at the end of a run, and what it keeps with the stack holds with
the empty stack if the run succeeds. -/
theorem run_keeps {P : List Frame → Adjoints → Dag α → Prop} {Q : Adjoints → Dag α → Prop}
    (hPQ : ∀ stack t d, P stack t d → Q t d)
    (hok : ∀ top rest t d stack t' d', P (top :: rest) t d →
      step top rest t d = (.ok stack, t', d') → P stack t' d')
    (herr : ∀ top rest t d fault t' d', P (top :: rest) t d →
      step top rest t d = (.error fault, t', d') → Q t' d')
    (steps : Nat) {stack : List Frame} {t : Adjoints} {d : Dag α} (h : P stack t d) :
    Q (run steps stack t d).2.1 (run steps stack t d).2.2 ∧
      ((run steps stack t d).1 = .ok () →
        P [] (run steps stack t d).2.1 (run steps stack t d).2.2) := by
  induction steps generalizing stack t d with
  | zero => exact ⟨hPQ _ _ _ h, fun hr => by simp [run] at hr⟩
  | succ steps ih =>
    cases stack with
    | nil => exact ⟨hPQ _ _ _ h, fun _ => h⟩
    | cons top rest =>
      rw [run_succ_cons]
      rcases hs : step top rest t d with ⟨outcome, t₁, d₁⟩
      cases outcome with
      | ok stack => exact ih (hok _ _ _ _ _ _ _ h hs)
      | error fault => exact ⟨herr _ _ _ _ _ _ _ h hs, fun hr => by cases hr⟩

/-- The ways in which a step succeeds: a sum is complete, a consumer is to be summed first, or a
use is added. -/
inductive Step (top : Frame) (rest : List Frame) (t : Adjoints) (d : Dag α) :
    List Frame → Adjoints → Dag α → Prop
  | finish (hp : top.pending = []) : Step top rest t d rest (t.insert top.node top.sum) d
  | descend {use : Use} {pending : List Use} (hp : top.pending = use :: pending)
    (hm : t.memo[use.consumer]? = none) (hr : use.consumer ≠ t.root) :
    Step top rest t d
      (⟨use.consumer, (t.walk.usesOf use.consumer).toList, (Build.zero d).1⟩ :: top :: rest) t
      (Build.zero d).2
  | add {use : Use} {pending : List Use} {weight slope : NodeId} {t₁ : Adjoints} {d₁ d₂ : Dag α}
    (hp : top.pending = use :: pending) (hk : t.known? use.consumer d = (some weight, t₁, d₁))
    (hs : derivative use.consumer use.position d₁ = (.ok slope, d₂)) :
    Step top rest t d
      (⟨top.node, pending, (accumulate top.sum weight slope d₂).1⟩ :: rest) t₁
      (accumulate top.sum weight slope d₂).2

/-- A known adjoint is in the memo, or it is that of the root. -/
theorem known?_cases (t : Adjoints) (node : NodeId) (d : Dag α) :
    (∃ a, t.memo[node]? = some a ∧ t.known? node d = (some a, t, d)) ∨
    (t.memo[node]? = none ∧ node = t.root ∧
      t.known? node d = (some (Build.one d).1, t.insert node (Build.one d).1, (Build.one d).2)) ∨
    (t.memo[node]? = none ∧ node ≠ t.root ∧ t.known? node d = (none, t, d)) := by
  rw [known?]
  cases hm : t.memo[node]? with
  | some a => exact Or.inl ⟨a, rfl, rfl⟩
  | none =>
    by_cases hr : node = t.root
    · rw [if_pos hr]
      exact Or.inr (Or.inl ⟨rfl, hr, rfl⟩)
    · rw [if_neg hr]
      exact Or.inr (Or.inr ⟨rfl, hr, rfl⟩)

theorem known?_of_none {t : Adjoints} {node : NodeId} (hm : t.memo[node]? = none)
    (hne : node ≠ t.root) : t.known? node d = (none, t, d) := by
  simp only [known?, hm, if_neg hne]

theorem known?_eq_none {t t' : Adjoints} {node : NodeId} {d' : Dag α}
    (h : t.known? node d = (none, t', d')) :
    t.memo[node]? = none ∧ node ≠ t.root ∧ t' = t ∧ d' = d := by
  rcases known?_cases t node d with ⟨a, -, hk⟩ | ⟨-, -, hk⟩ | ⟨hm, hr, hk⟩
  · cases h.symm.trans hk
  · cases h.symm.trans hk
  · cases h.symm.trans hk
    exact ⟨hm, hr, rfl, rfl⟩

theorem step_cases {top : Frame} {rest stack : List Frame} {t t' : Adjoints} {d' : Dag α}
    (hs : step top rest t d = (.ok stack, t', d')) : Step top rest t d stack t' d' := by
  rw [step] at hs
  cases hp : top.pending with
  | nil =>
    rw [hp] at hs
    cases hs
    exact .finish hp
  | cons use pending =>
    rw [hp] at hs
    dsimp only at hs
    rcases hk : t.known? use.consumer d with ⟨weight, t₁, d₁⟩
    rw [hk] at hs
    cases weight with
    | none =>
      obtain ⟨hm, hr, rfl, rfl⟩ := known?_eq_none hk
      cases hs
      exact .descend hp hm hr
    | some weight =>
      dsimp only at hs
      rcases hv : (derivative use.consumer use.position d₁ : Except Fault NodeId × Dag α)
        with ⟨slope, d₂⟩
      rw [hv] at hs
      cases slope with
      | error fault => cases hs
      | ok slope =>
        cases hs
        exact .add hp hk hv

/-- A step fails where the derivative of a known consumer does. -/
theorem step_error {top : Frame} {rest : List Frame} {t t' : Adjoints} {d' : Dag α} {fault : Fault}
    (hs : step top rest t d = (.error fault, t', d')) :
    ∃ use pending weight d₁, top.pending = use :: pending ∧
      t.known? use.consumer d = (some weight, t', d₁) ∧
      derivative use.consumer use.position d₁ = (.error fault, d') := by
  rw [step] at hs
  cases hp : top.pending with
  | nil =>
    rw [hp] at hs
    cases hs
  | cons use pending =>
    rw [hp] at hs
    dsimp only at hs
    rcases hk : t.known? use.consumer d with ⟨weight, t₁, d₁⟩
    rw [hk] at hs
    cases weight with
    | none => cases hs
    | some weight =>
      dsimp only at hs
      rcases hv : (derivative use.consumer use.position d₁ : Except Fault NodeId × Dag α)
        with ⟨slope, d₂⟩
      rw [hv] at hs
      cases slope with
      | ok slope => cases hs
      | error fault =>
        cases hs
        exact ⟨use, pending, weight, d₁, rfl, hk, hv⟩

/-- All adjoints that are known are nodes of the graph. -/
def Within (t : Adjoints) (d : Dag α) : Prop :=
  ∀ (node a : NodeId), t.memo[node]? = some a → a < d.count

theorem Within.mono {t : Adjoints} {d' : Dag α} (h : t.Within d) (he : d.Extends d') :
    t.Within d' :=
  fun node a ha => he.lt_count (h node a ha)

theorem Within.insert {t : Adjoints} (h : t.Within d) (node : NodeId) {a : NodeId}
    (ha : a < d.count) : (t.insert node a).Within d := by
  intro n b hb
  rw [Adjoints.insert, Std.HashMap.getElem?_insert] at hb
  split at hb
  · exact Option.some.inj hb ▸ ha
  · exact h n b hb

theorem within_start (root : NodeId) (walk : Walk) (d : Dag α) : (start root walk).Within d := by
  intro n a ha
  simp [start] at ha

theorem known?_adds (h : d.Lawful) {t : Adjoints} (ht : t.Within d) (node : NodeId) :
    d.Adds ((t.known? node d).1 = some ·) (t.known? node d).2.2 ∧
      (t.known? node d).2.1.Within (t.known? node d).2.2 := by
  rcases known?_cases t node d with ⟨a, ha, hk⟩ | ⟨-, -, hk⟩ | ⟨-, -, hk⟩
  · rw [hk]
    exact ⟨⟨.refl d, fun id hid => Option.some.inj hid ▸ ht node a ha⟩, ht⟩
  · rw [hk]
    have ha := Dag.adds_lit h Scalar.one
    have he := ha.grows.extends_ h
    exact ⟨⟨ha.grows, fun id hid => ha.lt id (Option.some.inj hid)⟩,
      (ht.mono he).insert node (ha.lt _ rfl)⟩
  · rw [hk]
    exact ⟨⟨.refl d, fun id hid => by cases hid⟩, ht⟩

theorem accumulate_adds (h : d.Lawful) {sum weight slope : NodeId} (hs : sum < d.count)
    (hw : weight < d.count) (hsl : slope < d.count) :
    d.Adds ((accumulate sum weight slope d).1 = ·) (accumulate sum weight slope d).2 := by
  have hx : ∀ x ∈ (Application.binary .mul weight slope).operands, x < d.count := by
    simpa [Application.operands] using ⟨hw, hsl⟩
  have hterm := Application.adds_build h hx
  refine .trans hterm.grows (Application.adds_build (hterm.grows.lawful h) ?_)
  simpa [Application.operands] using ⟨(hterm.grows.extends_ h).lt_count hs, hterm.lt _ rfl⟩

/-- The graphs that a use is added by way of: with the weight of its consumer, then with its slope
as well. The sum, the weight and the slope are nodes by then. -/
structure Weighed (d d₁ d₂ : Dag α) (t₁ : Adjoints) (sum weight slope : NodeId) : Prop where
  weighs : d.Grows d₁
  within : t₁.Within d₁
  slopes : d₁.Grows d₂
  sum_lt : sum < d₂.count
  weight_lt : weight < d₂.count
  slope_lt : slope < d₂.count

theorem weighed (h : d.Lawful) {t t₁ : Adjoints} (ht : t.Within d) {use : Use}
    {sum weight slope : NodeId} (hs : sum < d.count) {d₁ d₂ : Dag α}
    (hk : t.known? use.consumer d = (some weight, t₁, d₁))
    (hv : derivative use.consumer use.position d₁ = (.ok slope, d₂)) :
    Weighed d d₁ d₂ t₁ sum weight slope := by
  obtain ⟨hka, ht₁⟩ := known?_adds h ht use.consumer
  rw [hk] at hka ht₁
  have h₁ := hka.grows.lawful h
  have hva := derivative_adds h₁ use.consumer use.position
  rw [hv] at hva
  have he := hva.grows.extends_ h₁
  exact ⟨hka.grows, ht₁, hva.grows, he.lt_count ((hka.grows.extends_ h).lt_count hs),
    he.lt_count (hka.lt weight rfl), hva.lt slope rfl⟩

theorem Weighed.grows {d₁ d₂ : Dag α} {t₁ : Adjoints} {sum weight slope : NodeId}
    (h : Weighed d d₁ d₂ t₁ sum weight slope) : d.Grows d₂ :=
  h.weighs.trans h.slopes

theorem Weighed.adds {d₁ d₂ : Dag α} {t₁ : Adjoints} {sum weight slope : NodeId}
    (h : Weighed d d₁ d₂ t₁ sum weight slope) (hd : d.Lawful) :
    d₂.Adds ((accumulate sum weight slope d₂).1 = ·) (accumulate sum weight slope d₂).2 :=
  accumulate_adds (h.grows.lawful hd) h.sum_lt h.weight_lt h.slope_lt

/-- The sums on the stack and the adjoints known are nodes of a graph that has grown. -/
structure Sums (d₀ : Dag α) (stack : List Frame) (t : Adjoints) (d : Dag α) : Prop where
  grows : d₀.Grows d
  within : t.Within d
  sum_lt : ∀ frame ∈ stack, frame.sum < d.count

theorem Sums.self {d₀ : Dag α} {stack : List Frame} {t : Adjoints} (h : Sums d₀ stack t d) :
    Sums d stack t d :=
  ⟨.refl d, h.within, h.sum_lt⟩

theorem sums_frame {d₀ : Dag α} (h : d.Lawful) (hg : d₀.Grows d) {t : Adjoints} (ht : t.Within d)
    (node : NodeId) : Sums d₀ [(t.frame node d).1] t (t.frame node d).2 := by
  have hz := Dag.adds_lit h Scalar.zero
  exact ⟨hg.trans hz.grows, ht.mono (hz.grows.extends_ h),
    List.forall_mem_singleton.2 (hz.lt _ rfl)⟩

theorem Sums.step_ok {d₀ d' : Dag α} (h₀ : d₀.Lawful) {top : Frame} {rest stack : List Frame}
    {t t' : Adjoints} (h : Sums d₀ (top :: rest) t d)
    (hs : step top rest t d = (.ok stack, t', d')) :
    Sums d₀ stack t' d' := by
  have hd := h.grows.lawful h₀
  have htop := h.sum_lt top List.mem_cons_self
  have hrest := fun frame hf => h.sum_lt frame (List.mem_cons_of_mem _ hf)
  cases step_cases hs with
  | finish => exact ⟨h.grows, h.within.insert _ htop, hrest⟩
  | @descend use =>
    have hz : d.Adds ((Build.zero d).1 = ·) (Build.zero d).2 := Dag.adds_lit hd Scalar.zero
    have he := hz.grows.extends_ hd
    refine ⟨h.grows.trans hz.grows, h.within.mono he, fun frame hf => ?_⟩
    rcases List.mem_cons.1 hf with rfl | hf
    · exact hz.lt _ rfl
    · exact he.lt_count (h.sum_lt frame hf)
  | @add use pending weight slope _ d₁ d₂ hp hk hv =>
    have hw := weighed hd h.within htop hk hv
    have ha := hw.adds hd
    have hg := hw.grows.trans ha.grows
    have hd₁ := hw.weighs.lawful hd
    refine ⟨h.grows.trans hg, hw.within.mono ((hw.slopes.trans ha.grows).extends_ hd₁),
      fun frame hf => ?_⟩
    rcases List.mem_cons.1 hf with rfl | hf
    · exact ha.lt _ rfl
    · exact (hg.extends_ hd).lt_count (hrest frame hf)

theorem Sums.step_error {d₀ d' : Dag α} (h₀ : d₀.Lawful) {top : Frame} {rest : List Frame}
    {t t' : Adjoints} {fault : Fault} (h : Sums d₀ (top :: rest) t d)
    (hs : step top rest t d = (.error fault, t', d')) : d₀.Grows d' ∧ t'.Within d' := by
  have hd := h.grows.lawful h₀
  obtain ⟨use, pending, weight, d₁, -, hk, hv⟩ := Adjoints.step_error hs
  have hka := known?_adds hd h.within use.consumer
  rw [hk] at hka
  obtain ⟨hka, ht₁⟩ := hka
  have hd₁ := hka.grows.lawful hd
  have hva := derivative_adds hd₁ use.consumer use.position
  rw [hv] at hva
  exact ⟨(h.grows.trans hka.grows).trans hva.grows, ht₁.mono (hva.grows.extends_ hd₁)⟩

theorem run_grows (h : d.Lawful) (steps : Nat) {stack : List Frame} {t : Adjoints}
    (hs : Sums d stack t d) :
    d.Grows (run steps stack t d).2.2 ∧
      (run steps stack t d).2.1.Within (run steps stack t d).2.2 :=
  (run_keeps (P := Sums d) (Q := fun t d' => d.Grows d' ∧ t.Within d')
    (fun _ _ _ hs => ⟨hs.grows, hs.within⟩) (fun _ _ _ _ _ _ _ hs he => hs.step_ok h he)
    (fun _ _ _ _ _ _ _ hs he => hs.step_error h he) steps hs).1

/-- The adjoint of a node is a node, and so are all those that are known after it. -/
theorem adjoint_adds (h : d.Lawful) {t : Adjoints} (ht : t.Within d) (node : NodeId) :
    d.Adds ((t.adjoint node d).1 = .ok ·) (t.adjoint node d).2.2 ∧
      (t.adjoint node d).2.1.Within (t.adjoint node d).2.2 := by
  have hk := known?_adds h ht node
  rw [adjoint]
  rcases hr : t.known? node d with ⟨a, t₁, d₁⟩
  rw [hr] at hk
  obtain ⟨hk, ht₁⟩ := hk
  have h₁ := hk.grows.lawful h
  cases a with
  | some a => exact ⟨⟨hk.grows, fun id hid => hk.lt id (congrArg some (Except.ok.inj hid))⟩, ht₁⟩
  | none =>
    dsimp only
    have hs := sums_frame h₁ hk.grows ht₁ node
    have hg₂ := hs.grows
    have hrun := run_grows (hg₂.lawful h) t₁.budget hs.self
    rcases hr₃ : run t₁.budget [(t₁.frame node d₁).1] t₁ (t₁.frame node d₁).2 with ⟨o, t₃, d₃⟩
    rw [hr₃] at hrun
    obtain ⟨hg₃, ht₃⟩ := hrun
    have hg := hg₂.trans hg₃
    cases o with
    | error fault => exact ⟨⟨hg, fun id hid => by cases hid⟩, ht₃⟩
    | ok =>
      dsimp only
      cases ha : t₃.memo[node]? with
      | none => exact ⟨⟨hg, fun id hid => by cases hid⟩, ht₃⟩
      | some a => exact ⟨⟨hg, fun id hid => Except.ok.inj hid ▸ ht₃ node a ha⟩, ht₃⟩

theorem adjoints_adds (h : d.Lawful) {t : Adjoints} (ht : t.Within d) (nodes : List NodeId) :
    d.Adds (fun id => ∃ ids, (adjoints nodes t d).1 = .ok ids ∧ id ∈ ids)
      (adjoints nodes t d).2.2 := by
  induction nodes generalizing t d with
  | nil =>
    refine ⟨.refl d, ?_⟩
    rintro id ⟨ids, hids, hid⟩
    obtain rfl := Except.ok.inj hids
    exact absurd hid List.not_mem_nil
  | cons node nodes ih =>
    have ha := adjoint_adds h ht node
    rw [adjoints]
    rcases hr : t.adjoint node d with ⟨o, t₁, d₁⟩
    rw [hr] at ha
    obtain ⟨ha, ht₁⟩ := ha
    cases o with
    | error fault =>
      refine ⟨ha.grows, ?_⟩
      rintro id ⟨ids, hids, -⟩
      cases hids
    | ok first =>
      have h₁ := ha.grows.lawful h
      have hrest := ih h₁ ht₁
      dsimp only
      rcases hr₂ : adjoints nodes t₁ d₁ with ⟨o, t₂, d₂⟩
      rw [hr₂] at hrest
      refine ⟨ha.grows.trans hrest.grows, ?_⟩
      rintro id ⟨ids, hids, hid⟩
      cases o with
      | error fault => cases hids
      | ok rest =>
        obtain rfl := Except.ok.inj hids
        rcases List.mem_cons.1 hid with rfl | hid
        · exact (hrest.grows.extends_ h₁).lt_count (ha.lt _ rfl)
        · exact hrest.lt id ⟨rest, rfl, hid⟩

end Adjoints

namespace Dag

theorem lt_of_check {node : NodeId} {u : Unit} (h : d.check node = .ok u) : node < d.count := by
  rw [check] at h
  split at h
  · next hc => simpa [contains] using hc
  · cases h

theorem check_of_lt {node : NodeId} (h : node < d.count) : d.check node = .ok () := by
  rw [check, if_pos (by simpa [contains] using h)]

theorem check_of_not_lt {node : NodeId} (h : ¬ node < d.count) :
    d.check node = .error (.foreign node) := by
  rw [check, if_neg (by simpa [contains] using h)]

theorem check_eq_ok_iff {node : NodeId} : d.check node = .ok () ↔ node < d.count :=
  ⟨lt_of_check, check_of_lt⟩

theorem bind_eq_ok_iff {e : Except Fault Unit} {f : Unit → Except Fault Unit} :
    (e >>= f) = .ok () ↔ e = .ok () ∧ f () = .ok () := by
  cases e with
  | error fault => simp [bind, Except.bind]
  | ok => simp [bind, Except.bind]

theorem forM_eq_ok_iff {β : Type} {f : β → Except Fault Unit} {xs : List β} :
    xs.forM f = .ok () ↔ ∀ x ∈ xs, f x = .ok () := by
  induction xs with
  | nil => simp [List.forM, pure, Except.pure]
  | cons x xs ih =>
    show (f x >>= fun _ => xs.forM f) = .ok () ↔ _
    rw [bind_eq_ok_iff, ih, List.forall_mem_cons]

theorem forM_eq_error {β : Type} {f : β → Except Fault Unit} {xs : List β} {fault : Fault}
    (h : xs.forM f = .error fault) :
    ∃ done x todo, xs = done ++ x :: todo ∧ (∀ y ∈ done, f y = .ok ()) ∧ f x = .error fault := by
  induction xs with
  | nil => cases h
  | cons x xs ih =>
    change (f x >>= fun _ => xs.forM f) = .error fault at h
    cases hx : f x with
    | error fault' =>
      rw [hx] at h
      exact ⟨[], x, xs, rfl, by simp, h ▸ hx⟩
    | ok =>
      rw [hx] at h
      obtain ⟨done, y, todo, rfl, hdone, hy⟩ := ih h
      exact ⟨x :: done, y, todo, rfl, List.forall_mem_cons.2 ⟨hx, hdone⟩, hy⟩

theorem forM_congr {β : Type} {f g : β → Except Fault Unit} {xs : List β}
    (h : ∀ x ∈ xs, f x = g x) : xs.forM f = xs.forM g := by
  induction xs with
  | nil => rfl
  | cons x xs ih =>
    show (f x >>= fun _ => xs.forM f) = (g x >>= fun _ => xs.forM g)
    rw [h x List.mem_cons_self, ih fun y hy => h y (List.mem_cons_of_mem _ hy)]

theorem checkVariable_eq_ok_iff {node : NodeId} :
    d.checkVariable node = .ok () ↔ (d.name? node).isSome := by
  rw [checkVariable, bind_eq_ok_iff, check_eq_ok_iff]
  cases hn : d.name? node with
  | some name =>
    have hlt := lt_of_isSome_name? (Option.isSome_of_eq_some hn)
    simp [hlt, pure, Except.pure]
  | none => simp [throw, throwThe, MonadExceptOf.throw]

theorem checkBundle_eq_ok_iff {parts : Bundle} :
    d.checkBundle parts = .ok () ↔
      parts.partials.length = parts.vars.length ∧ parts.primal < d.count ∧
        (∀ x ∈ parts.partials, x < d.count) ∧ ∀ v ∈ parts.vars, (d.name? v).isSome := by
  rw [checkBundle]
  by_cases hlen : parts.partials.length = parts.vars.length
  · simp only [hlen, ne_eq, not_true_eq_false, if_false, true_and]
    show ((d.check parts.primal >>= fun _ => parts.partials.forM d.check >>= fun _ =>
      parts.vars.forM d.checkVariable) = .ok ()) ↔ _
    simp only [bind_eq_ok_iff, check_eq_ok_iff, forM_eq_ok_iff, checkVariable_eq_ok_iff]
  · simp [hlen, bind, Except.bind, throw, throwThe, MonadExceptOf.throw]

theorem admits_bundle {parts : Bundle} (h : d.checkBundle parts = .ok ()) :
    d.Admits parts.node := by
  obtain ⟨hlen, hp, hps, hvs⟩ := checkBundle_eq_ok_iff.1 h
  exact .gradient hp hps hvs hlen

namespace Bundle

theorem build_adds (h : d.Lawful) (parts : Bundle) :
    d.Adds ((parts.build d).1 = .ok ·) (parts.build d).2 := by
  rw [build]
  cases hc : d.checkBundle parts with
  | error fault => exact ⟨.refl d, fun id hid => by cases hid⟩
  | ok =>
    have ha := adds_intern h (admits_bundle hc)
    exact ⟨ha.grows, fun id hid => ha.lt id (Except.ok.inj hid)⟩

end Bundle

end Dag

/-- The gradient of a node is a node, and only nodes that may be added are, also by a failure. -/
theorem backward_adds (h : d.Lawful) (root : NodeId) :
    d.Adds ((backward root d).1 = .ok ·) (backward root d).2 := by
  rw [backward]
  cases hc : d.checkRoot root with
  | error fault => exact ⟨.refl d, fun id hid => by cases hid⟩
  | ok =>
    dsimp only
    have ha := Adjoints.adjoints_adds h (Adjoints.within_start root (d.walk root) d)
      (d.walk root).freeVars
    rcases hr : Adjoints.adjoints (d.walk root).freeVars (.start root (d.walk root)) d
      with ⟨o, t, d₁⟩
    rw [hr] at ha
    cases o with
    | error fault => exact ⟨ha.grows, fun id hid => by cases hid⟩
    | ok partials =>
      exact .trans ha.grows (Dag.Bundle.build_adds (ha.grows.lawful h) _)

end SharedExpr

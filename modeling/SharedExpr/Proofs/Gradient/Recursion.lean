import SharedExpr.Proofs.Gradient.Termination

/-! Adjoints by recursion over uses. The stack of summations computes the same. -/
namespace SharedExpr.Adjoints

variable {α : Type} [Scalar α]

/-- Adds uses to a sum in order. The adjoints of their consumers are found by `weigh`. -/
def addUses {P : Use → Prop}
    (weigh : {use : Use // P use} → Adjoints → Dag α → Except Fault NodeId × Adjoints × Dag α) :
    List {use : Use // P use} → NodeId → Adjoints → Dag α →
      Except Fault NodeId × Adjoints × Dag α
  | [], sum, t, d => (.ok sum, t, d)
  | use :: uses, sum, t, d =>
    match weigh use t d with
    | (.error fault, t, d) => (.error fault, t, d)
    | (.ok weight, t, d) =>
      match derivative use.1.consumer use.1.position d with
      | (.error fault, d) => (.error fault, t, d)
      | (.ok slope, d) =>
        let (sum, d) := accumulate sum weight slope d
        addUses weigh uses sum t d

def memoize (node : NodeId) : Except Fault NodeId × Adjoints × Dag α →
    Except Fault NodeId × Adjoints × Dag α
  | (.error fault, t, d) => (.error fault, t, d)
  | (.ok sum, t, d) => (.ok sum, t.insert node sum, d)

/-- The adjoint of a node by recursion: a known one, one for the root, or else the sum over its uses
of the adjoint of the consumer times the derivative of the consumer at this use. A failure keeps the
adjoints known by then. -/
def recursive (w : Walk) (hw : w.Climbs) (node : NodeId) (t : Adjoints) (d : Dag α) :
    Except Fault NodeId × Adjoints × Dag α :=
  match t.memo[node]? with
  | some adjoint => (.ok adjoint, t, d)
  | none =>
    if node = t.root then
      let (one, d) := Build.one d
      (.ok one, t.insert node one, d)
    else
      let (sum, d) := Build.zero d
      memoize node <|
        addUses (fun use => recursive w hw use.1.consumer) (w.usesOf node).toList.attach sum t d
termination_by w.uses.size - node
decreasing_by
  obtain ⟨hlt, hsize⟩ := hw node use.1 use.2
  exact Nat.sub_lt_sub_left (Nat.lt_trans hlt hsize) hlt

variable {d d' d₁ : Dag α} {t t' t₁ : Adjoints} {w : Walk} {node weight : NodeId} {top : Frame}
  {rest below stack : List Frame} {r : Except Fault NodeId × Adjoints × Dag α}

theorem recursive_of_known (hw : w.Climbs) (hk : t.known? node d = (some weight, t', d')) :
    recursive w hw node t d = (.ok weight, t', d') := by
  rw [recursive]
  rcases known?_cases t node d with ⟨a, hm, h⟩ | ⟨hm, hr, h⟩ | ⟨-, -, h⟩
  · cases h.symm.trans hk
    simp only [hm]
  · cases h.symm.trans hk
    simp only [hm, if_pos hr]
    rfl
  · cases h.symm.trans hk

theorem recursive_of_unknown (hw : w.Climbs) (hm : t.memo[node]? = none) (hne : node ≠ t.root) :
    recursive w hw node t d =
      memoize node (addUses (fun use => recursive w hw use.1.consumer)
        (w.usesOf node).toList.attach (Build.zero d).1 t (Build.zero d).2) := by
  rw [recursive]
  simp only [hm, if_neg hne]
  rfl

/-- With summations on top a stack comes to what the rest of it comes to after an outcome of these
summations, or to the failure that is their outcome. -/
def Continues (stack rest : List Frame) (t : Adjoints) (d : Dag α) :
    Except Fault NodeId × Adjoints × Dag α → Prop
  | (.error fault, t', d') => Runs stack t d (.error fault, t', d')
  | (.ok _, t', d') => ∀ r, Runs rest t' d' r → Runs stack t d r

theorem Continues.mono {stack' : List Frame}
    (hruns : ∀ r, Runs stack' t' d' r → Runs stack t d r) (h : Continues stack' rest t' d' r) :
    Continues stack rest t d r := by
  rcases r with ⟨fault | sum, t₁, d₁⟩
  · exact hruns _ h
  · exact fun r hr => hruns r (h r hr)

/-- A way to find the adjoint of a node does what the summation of the node does, unless the adjoint
is known. -/
structure Weighs (w : Walk) (node : NodeId)
    (weigh : Adjoints → Dag α → Except Fault NodeId × Adjoints × Dag α) : Prop where
  walk_eq : ∀ t d, t.walk = w → (weigh t d).2.1.walk = w
  known : ∀ {t d a t' d'}, t.known? node d = (some a, t', d') → weigh t d = (.ok a, t', d')
  continues : ∀ {t d}, t.walk = w → t.memo[node]? = none → node ≠ t.root →
    ∀ rest, Continues ((t.frame node d).1 :: rest) rest t (t.frame node d).2 (weigh t d)
  memo : ∀ {t d a t' d'}, t.memo[node]? = none → node ≠ t.root → weigh t d = (.ok a, t', d') →
    t'.memo[node]? = some a

section Use

variable {use : Use} {pending : List Use} {sum : NodeId}
  {weigh : Adjoints → Dag α → Except Fault NodeId × Adjoints × Dag α}

theorem step_of_unknown (hm : t.memo[use.consumer]? = none) (hr : use.consumer ≠ t.root) :
    step ⟨node, use :: pending, sum⟩ rest t d =
      (.ok ((t.frame use.consumer d).1 :: ⟨node, use :: pending, sum⟩ :: rest), t,
        (t.frame use.consumer d).2) := by
  simp only [step, known?_of_none hm hr]

/-- The use of a consumer whose adjoint cannot be found is not added. -/
theorem Weighs.fails (h : Weighs w use.consumer weigh) (ht : t.walk = w) {fault : Fault}
    (hf : weigh t d = (.error fault, t₁, d₁)) :
    Runs (⟨node, use :: pending, sum⟩ :: rest) t d (.error fault, t₁, d₁) := by
  rcases hk : t.known? use.consumer d with ⟨o, t', d'⟩
  cases o with
  | some a => cases (h.known hk).symm.trans hf
  | none =>
    obtain ⟨hm, hr, -, -⟩ := known?_eq_none hk
    have hc := h.continues (d := d) ht hm hr (⟨node, use :: pending, sum⟩ :: rest)
    rw [hf] at hc
    exact .next (step_of_unknown hm hr) hc

/-- A consumer whose adjoint is found is known by the time that its use is added. -/
theorem Weighs.finds (h : Weighs w use.consumer weigh) (ht : t.walk = w)
    (hf : weigh t d = (.ok weight, t₁, d₁)) :
    ∃ t' d', t'.known? use.consumer d' = (some weight, t₁, d₁) ∧
      ∀ r, Runs (⟨node, use :: pending, sum⟩ :: rest) t' d' r →
        Runs (⟨node, use :: pending, sum⟩ :: rest) t d r := by
  rcases hk : t.known? use.consumer d with ⟨o, t', d'⟩
  cases o with
  | some a =>
    cases (h.known hk).symm.trans hf
    exact ⟨t, d, hk, fun r hr => hr⟩
  | none =>
    -- The consumer is summed on top of the stack, and then the same use is looked at again.
    obtain ⟨hm, hr, -, -⟩ := known?_eq_none hk
    have hc := h.continues (d := d) ht hm hr (⟨node, use :: pending, sum⟩ :: rest)
    rw [hf] at hc
    have hm₁ := h.memo hm hr hf
    refine ⟨t₁, d₁, ?_, fun r hruns => .next (step_of_unknown hm hr) (hc r hruns)⟩
    simp only [known?, hm₁]

end Use

theorem continues_addUses {P : Use → Prop}
    {weigh : {use : Use // P use} → Adjoints → Dag α → Except Fault NodeId × Adjoints × Dag α}
    (hweigh : ∀ use, Weighs w use.1.consumer (weigh use)) (uses : List {use : Use // P use})
    (sum : NodeId) (ht : t.walk = w) :
    Continues (⟨node, uses.map Subtype.val, sum⟩ :: rest) rest t d
      (memoize node (addUses weigh uses sum t d)) := by
  induction uses generalizing sum t d with
  | nil => exact fun r hr => .next rfl hr
  | cons use uses ih =>
    rw [addUses]
    rcases hf : weigh use t d with ⟨fault | weight, t₁, d₁⟩
    · exact (hweigh use).fails ht hf
    · have ht₁ : t₁.walk = w := by
        have hwalk := (hweigh use).walk_eq t d ht
        rwa [hf] at hwalk
      obtain ⟨t', d', hk, hruns⟩ := (hweigh use).finds ht hf
      dsimp only
      rcases hv : (derivative use.1.consumer use.1.position d₁ : Except Fault NodeId × Dag α)
        with ⟨fault | slope, d₂⟩
      · refine hruns _ (.fail ?_)
        simp only [step, hk, hv]
      · have hs : step ⟨node, use.1 :: uses.map Subtype.val, sum⟩ rest t' d' =
            (.ok (⟨node, uses.map Subtype.val, (accumulate sum weight slope d₂).1⟩ :: rest), t₁,
              (accumulate sum weight slope d₂).2) := by
          simp only [step, hk, hv]
        exact (ih (accumulate sum weight slope d₂).1 ht₁).mono fun r hr => hruns r (.next hs hr)

theorem walk_addUses {P : Use → Prop}
    {weigh : {use : Use // P use} → Adjoints → Dag α → Except Fault NodeId × Adjoints × Dag α}
    (hweigh : ∀ use, Weighs w use.1.consumer (weigh use)) (uses : List {use : Use // P use})
    (sum : NodeId) (ht : t.walk = w) :
    (memoize node (addUses weigh uses sum t d)).2.1.walk = w := by
  induction uses generalizing sum t d with
  | nil => exact ht
  | cons use uses ih =>
    have hwalk := (hweigh use).walk_eq t d ht
    rw [addUses]
    rcases hf : weigh use t d with ⟨fault | weight, t₁, d₁⟩
    · rwa [hf] at hwalk
    · rw [hf] at hwalk
      dsimp only
      rcases hv : (derivative use.1.consumer use.1.position d₁ : Except Fault NodeId × Dag α)
        with ⟨fault | slope, d₂⟩
      · exact hwalk
      · exact ih _ hwalk

theorem memo_memoize {a : NodeId} (h : memoize node r = (.ok a, t', d')) :
    t'.memo[node]? = some a := by
  rcases r with ⟨fault | sum, t₁, d₁⟩
  · cases h
  · cases h
    rw [memo_insert, if_pos rfl]

theorem weighs_recursive (hw : w.Climbs) (node : NodeId) :
    Weighs w node (recursive (α := α) w hw node) := by
  -- Consumers are younger, so what is left of the table above the node decreases.
  induction hsize : w.uses.size - node using Nat.strong_induction_on generalizing node with
  | _ size ih =>
    have hweigh : ∀ use : {use : Use // use ∈ (w.usesOf node).toList},
        Weighs w use.1.consumer (recursive (α := α) w hw use.1.consumer) := by
      intro use
      obtain ⟨hlt, hsize'⟩ := hw node use.1 use.2
      exact ih _ (hsize ▸ Nat.sub_lt_sub_left (Nat.lt_trans hlt hsize') hlt) _ rfl
    refine ⟨fun t d ht => ?_, fun hk => recursive_of_known hw hk, fun {t d} ht hm hne rest => ?_,
      fun {t d a t' d'} hm hne hf => ?_⟩
    · rcases hk : t.known? node d with ⟨o, t₁, d₁⟩
      cases o with
      | some a =>
        rw [recursive_of_known hw hk]
        exact (keeps_known? hk).walk_eq.trans ht
      | none =>
        obtain ⟨hm, hne, -, -⟩ := known?_eq_none hk
        rw [recursive_of_unknown hw hm hne]
        exact walk_addUses hweigh _ _ ht
    · rw [recursive_of_unknown hw hm hne]
      subst ht
      have hc : Continues (⟨node, _, (Build.zero d).1⟩ :: rest) rest t (Build.zero d).2 _ :=
        continues_addUses hweigh (t.walk.usesOf node).toList.attach (Build.zero d).1 rfl
      rwa [List.attach_map_subtype_val] at hc
    · rw [recursive_of_unknown hw hm hne] at hf
      exact memo_memoize hf

theorem finds_recursive (hw : t.walk.Climbs) (node : NodeId) (d : Dag α) :
    Finds node t d (recursive t.walk hw node t d) := by
  have hweighs := weighs_recursive (α := α) hw node
  rcases hk : t.known? node d with ⟨o, t', d'⟩
  cases o with
  | some a =>
    rw [hweighs.known hk]
    exact .known hk
  | none =>
    obtain ⟨hm, hne, -, -⟩ := known?_eq_none hk
    have hc := hweighs.continues (d := d) rfl hm hne []
    rcases hr : recursive t.walk hw node t d with ⟨fault | a, t₁, d₁⟩
    · rw [hr] at hc
      exact .fail hm hne hc
    · rw [hr] at hc
      exact .sum hm hne (hc _ (.done t₁ d₁)) (hweighs.memo hm hne hr)

/-- The stack of summations is the recursion: the same adjoint or the same failure, the same
adjoints known in the end and the same graph. -/
theorem adjoint_eq_recursive (hw : t.walk.Climbs) (node : NodeId) (d : Dag α) :
    t.adjoint node d = recursive t.walk hw node t d :=
  (finds_adjoint hw node d).eq (finds_recursive hw node d)

end SharedExpr.Adjoints

import SharedExpr.Proofs.Gradient.Growth

/-! What summations keep: a rule for properties of adjoints and of sums under way. -/
namespace SharedExpr.Adjoints

variable {α : Type} [Scalar α]

/-- Properties of sums over some uses and of adjoints that hold as the graph grows, such that the
steps of a summation lead from one to the other. -/
structure Reading (d₀ : Dag α) (root : NodeId) (w : Walk) (sum : List Use → NodeId → Dag α → Prop)
    (adjoint : NodeId → NodeId → Dag α → Prop) : Prop where
  grow_sum : ∀ {done id d d'}, d₀.Grows d → d.Grows d' → id < d.count → sum done id d →
    sum done id d'
  grow_adjoint : ∀ {node id d d'}, d₀.Grows d → d.Grows d' → id < d.count → adjoint node id d →
    adjoint node id d'
  seed : ∀ {d}, d₀.Grows d → adjoint root (Build.one d).1 (Build.one d).2
  zero : ∀ {d}, d₀.Grows d → sum [] (Build.zero d).1 (Build.zero d).2
  add : ∀ {node done use id weight slope d d'}, d₀.Grows d → use ∈ (w.usesOf node).toList →
    id < d.count → weight < d.count → sum done id d → adjoint use.consumer weight d →
    derivative use.consumer use.position d = (.ok slope, d') →
    sum (done ++ [use]) (accumulate id weight slope d').1 (accumulate id weight slope d').2
  finish : ∀ {node id d}, node ≠ root → sum (w.usesOf node).toList id d → adjoint node id d

structure Known (d₀ : Dag α) (root : NodeId) (w : Walk) (adjoint : NodeId → NodeId → Dag α → Prop)
    (t : Adjoints) (d : Dag α) : Prop where
  grows : d₀.Grows d
  within : t.Within d
  root_eq : t.root = root
  walk_eq : t.walk = w
  adjoint : ∀ (node a : NodeId), t.memo[node]? = some a → adjoint node a d

/-- A sum under way is read as the sum over the uses that are no longer pending. -/
def Frame.Reads (w : Walk) (root : NodeId) (sum : List Use → NodeId → Dag α → Prop) (d : Dag α)
    (frame : Frame) : Prop :=
  frame.sum < d.count ∧ frame.node ≠ root ∧
    ∃ done, (w.usesOf frame.node).toList = done ++ frame.pending ∧ sum done frame.sum d

variable {d₀ d d' : Dag α} {root : NodeId} {w : Walk} {sum : List Use → NodeId → Dag α → Prop}
  {adjoint : NodeId → NodeId → Dag α → Prop} {t t' : Adjoints}

theorem Known.grow (hr : Reading d₀ root w sum adjoint) (h₀ : d₀.Lawful)
    (h : Known d₀ root w adjoint t d) (hg : d.Grows d') : Known d₀ root w adjoint t d' where
  grows := h.grows.trans hg
  within := h.within.mono (hg.extends_ (h.grows.lawful h₀))
  root_eq := h.root_eq
  walk_eq := h.walk_eq
  adjoint node a ha := hr.grow_adjoint h.grows hg (h.within node a ha) (h.adjoint node a ha)

theorem Known.insert (h : Known d₀ root w adjoint t d) {node a : NodeId} (ha : a < d.count)
    (had : adjoint node a d) : Known d₀ root w adjoint (t.insert node a) d where
  grows := h.grows
  within := h.within.insert node ha
  root_eq := h.root_eq
  walk_eq := h.walk_eq
  adjoint n b hb := by
    rw [Adjoints.insert, Std.HashMap.getElem?_insert] at hb
    split at hb
    · next hn =>
      obtain rfl := Option.some.inj hb
      obtain rfl : node = n := by simpa using hn
      exact had
    · exact h.adjoint n b hb

theorem Frame.Reads.grow (hr : Reading d₀ root w sum adjoint) (h₀ : d₀.Lawful) (h : d₀.Grows d)
    (hg : d.Grows d') {frame : Frame} (hf : frame.Reads w root sum d) :
    frame.Reads w root sum d' := by
  obtain ⟨hlt, hne, done, hdone, hs⟩ := hf
  exact ⟨(hg.extends_ (h.lawful h₀)).lt_count hlt, hne, done, hdone, hr.grow_sum h hg hlt hs⟩

theorem known?_reads (hr : Reading d₀ root w sum adjoint) (h₀ : d₀.Lawful)
    (h : Known d₀ root w adjoint t d) {node a : NodeId}
    (hk : t.known? node d = (some a, t', d')) :
    d.Grows d' ∧ Known d₀ root w adjoint t' d' ∧ a < d'.count ∧ adjoint node a d' := by
  rcases known?_cases t node d with ⟨b, hm, hb⟩ | ⟨-, hroot, hb⟩ | ⟨-, -, hb⟩
  · cases hb.symm.trans hk
    exact ⟨.refl d, h, h.within node a hm, h.adjoint node a hm⟩
  · cases hb.symm.trans hk
    have hone := Dag.adds_lit (h.grows.lawful h₀) Scalar.one
    have hlt : (Build.one d).1 < (Build.one d).2.count := hone.lt _ rfl
    have had : adjoint node (Build.one d).1 (Build.one d).2 :=
      hroot.trans h.root_eq ▸ hr.seed h.grows
    exact ⟨hone.grows, (h.grow hr h₀ hone.grows).insert hlt had, hlt, had⟩
  · cases hb.symm.trans hk

theorem step_reads (hr : Reading d₀ root w sum adjoint) (h₀ : d₀.Lawful) {top : Frame}
    {rest stack : List Frame} (h : Known d₀ root w adjoint t d)
    (hf : ∀ frame ∈ top :: rest, frame.Reads w root sum d)
    (hs : step top rest t d = (.ok stack, t', d')) :
    Known d₀ root w adjoint t' d' ∧ ∀ frame ∈ stack, frame.Reads w root sum d' := by
  obtain ⟨hlt, hne, done, hdone, hsum⟩ := hf top List.mem_cons_self
  have hrest := fun frame hm => hf frame (List.mem_cons_of_mem top hm)
  have hd := h.grows.lawful h₀
  cases step_cases hs with
  | finish hp =>
    rw [hp, List.append_nil] at hdone
    exact ⟨h.insert hlt (hr.finish hne (hdone ▸ hsum)), hrest⟩
  | @descend use pending hp hm hroot =>
    have hz : d.Adds ((Build.zero d).1 = ·) (Build.zero d).2 := Dag.adds_lit hd Scalar.zero
    refine ⟨h.grow hr h₀ hz.grows, fun frame hm => ?_⟩
    rcases List.mem_cons.1 hm with rfl | hm
    · exact ⟨hz.lt _ rfl, h.root_eq ▸ hroot, [], by rw [h.walk_eq]; rfl, hr.zero h.grows⟩
    · exact (hf frame hm).grow hr h₀ h.grows hz.grows
  | @add use pending weight slope _ d₁ d₂ hp hk hv =>
    obtain ⟨hg₁, h₁, hwlt, hw⟩ := known?_reads hr h₀ h hk
    have hweighed := weighed hd h.within hlt hk hv
    have ha := hweighed.adds hd
    have he₁ := hg₁.extends_ hd
    have hg := hweighed.grows.trans ha.grows
    have huse : use ∈ (w.usesOf top.node).toList := by simp [hdone, hp]
    refine ⟨h₁.grow hr h₀ (hweighed.slopes.trans ha.grows), fun frame hm => ?_⟩
    rcases List.mem_cons.1 hm with rfl | hm
    · refine ⟨ha.lt _ rfl, hne, done ++ [use], by simp [hdone, hp], ?_⟩
      exact hr.add h₁.grows huse (he₁.lt_count hlt) hwlt (hr.grow_sum h.grows hg₁ hlt hsum) hw hv
    · exact (hrest frame hm).grow hr h₀ h.grows hg

theorem run_reads (hr : Reading d₀ root w sum adjoint) (h₀ : d₀.Lawful) (steps : Nat)
    {stack : List Frame} (h : Known d₀ root w adjoint t d)
    (hf : ∀ frame ∈ stack, frame.Reads w root sum d)
    (hrun : run steps stack t d = (.ok (), t', d')) :
    Known d₀ root w adjoint t' d' := by
  have hk := (run_keeps
    (P := fun stack t d => Known d₀ root w adjoint t d ∧ ∀ frame ∈ stack, frame.Reads w root sum d)
    (Q := fun _ _ => True) (fun _ _ _ _ => trivial)
    (fun _ _ _ _ _ _ _ h hs => step_reads hr h₀ h.1 h.2 hs) (fun _ _ _ _ _ _ _ _ _ => trivial)
    steps ⟨h, hf⟩).2
  rw [hrun] at hk
  exact (hk rfl).1

/-- An adjoint that is found is read as the adjoint of its node. -/
theorem adjoint_reads (hr : Reading d₀ root w sum adjoint) (h₀ : d₀.Lawful)
    (h : Known d₀ root w adjoint t d) {node a : NodeId}
    (ha : t.adjoint node d = (.ok a, t', d')) :
    Known d₀ root w adjoint t' d' ∧ adjoint node a d' := by
  rw [Adjoints.adjoint] at ha
  rcases hk : t.known? node d with ⟨b, t₁, d₁⟩
  rw [hk] at ha
  cases b with
  | some b =>
    cases ha
    obtain ⟨-, h₁, -, hb⟩ := known?_reads hr h₀ h hk
    exact ⟨h₁, hb⟩
  | none =>
    obtain ⟨-, hne, rfl, rfl⟩ := known?_eq_none hk
    have hz : d₁.Adds ((Build.zero d₁).1 = ·) (Build.zero d₁).2 :=
      Dag.adds_lit (h.grows.lawful h₀) Scalar.zero
    have hframe : ∀ frame ∈ [(t₁.frame node d₁).1],
        frame.Reads w root sum (t₁.frame node d₁).2 := by
      intro frame hm
      obtain rfl := List.mem_singleton.1 hm
      exact ⟨hz.lt _ rfl, h.root_eq ▸ hne, [], by rw [h.walk_eq.symm]; rfl, hr.zero h.grows⟩
    dsimp only at ha
    rcases hrun : run t₁.budget [(t₁.frame node d₁).1] t₁ (t₁.frame node d₁).2 with ⟨o, t₂, d₂⟩
    rw [hrun] at ha
    cases o with
    | error fault => cases ha
    | ok =>
      have h₂ := run_reads hr h₀ _ (h.grow hr h₀ hz.grows) hframe hrun
      dsimp only at ha
      cases hm : t₂.memo[node]? with
      | none =>
        rw [hm] at ha
        cases ha
      | some b =>
        rw [hm] at ha
        cases ha
        exact ⟨h₂, h₂.adjoint node _ hm⟩

theorem adjoints_reads (hr : Reading d₀ root w sum adjoint) (h₀ : d₀.Lawful)
    (h : Known d₀ root w adjoint t d) {nodes ids : List NodeId}
    (ha : adjoints nodes t d = (.ok ids, t', d')) :
    Known d₀ root w adjoint t' d' ∧ List.Forall₂ (adjoint · · d') nodes ids := by
  induction nodes generalizing t d ids with
  | nil =>
    cases ha
    exact ⟨h, .nil⟩
  | cons node nodes ih =>
    rw [adjoints] at ha
    rcases hn : t.adjoint node d with ⟨o, t₁, d₁⟩
    rw [hn] at ha
    cases o with
    | error fault => cases ha
    | ok first =>
      obtain ⟨h₁, hfirst⟩ := adjoint_reads hr h₀ h hn
      have hlt : first < d₁.count := by
        have hadds := (adjoint_adds (h.grows.lawful h₀) h.within node).1
        rw [hn] at hadds
        exact hadds.lt first rfl
      dsimp only at ha
      rcases hrest : adjoints nodes t₁ d₁ with ⟨o, t₂, d₂⟩
      rw [hrest] at ha
      cases o with
      | error fault => cases ha
      | ok rest =>
        cases ha
        obtain ⟨h₂, hall⟩ := ih h₁ hrest
        have hg : d₁.Grows d₂ := by
          have hadds := adjoints_adds (h₁.grows.lawful h₀) h₁.within nodes
          rw [hrest] at hadds
          exact hadds.grows
        exact ⟨h₂, .cons (hr.grow_adjoint h₁.grows hg hlt hfirst) hall⟩

theorem known_start (adjoint : NodeId → NodeId → Dag α → Prop) (root : NodeId) (w : Walk)
    (d : Dag α) : Known d root w adjoint (start root w) d where
  grows := .refl d
  within := within_start root w d
  root_eq := rfl
  walk_eq := rfl
  adjoint node a ha := by simp [start] at ha

end SharedExpr.Adjoints

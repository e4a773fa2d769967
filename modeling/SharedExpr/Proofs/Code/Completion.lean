import SharedExpr.Proofs.Code.Simulation
import SharedExpr.Proofs.Eval.Results

/-! Lowering comes to an end: there is a function for every root with no gradient under its
parts. -/
namespace SharedExpr

variable {α : Type} [Scalar α] {d : Dag α} {root : NodeId}

def Dag.namedVars (d : Dag α) (root : NodeId) : List (NodeId × String) :=
  (d.freeVars root).filterMap fun var => (d.name? var).map (var, ·)

theorem Dag.map_snd_namedVars (d : Dag α) (root : NodeId) :
    (d.namedVars root).map Prod.snd = d.varNames root := by
  rw [namedVars, List.map_filterMap, varNames]
  congr 1
  funext v
  cases d.name? v <;> rfl

theorem Dag.name?_of_mem_namedVars {v : NodeId} {name : String}
    (hv : (v, name) ∈ d.namedVars root) : d.name? v = some name := by
  obtain ⟨w, -, hw⟩ := List.mem_filterMap.1 hv
  obtain ⟨n, hn, he⟩ := Option.map_eq_some_iff.1 hw
  cases he
  exact hn

namespace Lowering

/-- A lowering that starts with the registers of variables. -/
def bindAll (vars : List (NodeId × String)) (s : Lowering) : Lowering :=
  vars.foldl (fun s (var, name) => s.bind var (Register.value name).text) s

def complete (d : Dag α) (root : NodeId) (options : CodeOptions) (ts : List String)
    (s : Lowering) : Program :=
  let exit := epilogue options.convention ts (d.bundle? root).isSome
  { name := options.functionName
    returns := exit.1
    params := params options.convention (d.varNames root)
    prologue := prologue options.convention (d.varNames root)
    body := s.body.toList
    epilogue := exit.2 }

variable [ScalarText α] {options : CodeOptions}

/-- A lowering completes a function for a root if it lowers its results. -/
theorem program_from_eq (s : Lowering) (hroot : root < d.count) :
    s.program d root options =
      match lowerList d (d.resultNodes root) (bindAll (d.namedVars root) s) with
      | (.ok ts, s) => .ok (complete d root options ts s)
      | (.error fault, _) => .error fault := by
  have hnames := d.map_snd_namedVars root
  rw [Dag.namedVars] at hnames
  rw [program, Dag.check_of_lt hroot]
  simp only [hnames]
  show (lowerList d (d.resultNodes root) (bindAll (d.namedVars root) s) :
    Except Fault (List String) × Lowering).1.bind (fun ts => .ok (complete d root options ts
      (lowerList d (d.resultNodes root) (bindAll (d.namedVars root) s)).2)) = _
  rcases (lowerList d (d.resultNodes root) (bindAll (d.namedVars root) s) :
    Except Fault (List String) × Lowering) with ⟨o, s'⟩
  cases o <;> rfl

theorem program_eq (hroot : root < d.count) :
    d.program root options =
      match lowerList d (d.resultNodes root) (bindAll (d.namedVars root) start) with
      | (.ok ts, s) => .ok (complete d root options ts s)
      | (.error fault, _) => .error fault :=
  program_from_eq start hroot

theorem program_from_foreign (s : Lowering) (hroot : ¬ root < d.count) :
    s.program d root options = .error (.foreign root) := by
  rw [program, Dag.check_of_not_lt hroot]
  rfl

theorem program_of_foreign (hroot : ¬ root < d.count) :
    d.program root options = .error (.foreign root) :=
  program_from_foreign start hroot

theorem program_eq_ok {p : Program} (hp : d.program root options = .ok p) :
    root < d.count ∧ ∃ ts s,
      lowerList d (d.resultNodes root) (bindAll (d.namedVars root) start) = (.ok ts, s) ∧
      p = complete d root options ts s := by
  have hroot : root < d.count := by
    rw [Dag.program, program] at hp
    obtain ⟨_, hc, -⟩ := Except.bind_eq_ok hp
    exact Dag.lt_of_check hc
  refine ⟨hroot, ?_⟩
  rw [program_eq hroot] at hp
  rcases hl : (lowerList d (d.resultNodes root) (bindAll (d.namedVars root) start) :
    Except Fault (List String) × Lowering) with ⟨o, s⟩
  rw [hl] at hp
  cases o with
  | error fault => cases hp
  | ok ts => exact ⟨ts, s, rfl, (Except.ok.inj hp).symm⟩

variable {s : Lowering}

/-- A node is lowered once its operands are, unless it is a variable or a gradient. -/
theorem exists_lowerNode (h : d.Lawful) {id : NodeId} (hid : id < d.count)
    (hname : d.name? id = none) (hg : (d.label? id).any Label.isGradient = false)
    (hx : ∀ x ∈ d.operands id, s.Known x) : ∃ t i, lowerNode d s id = .ok (t, i) := by
  obtain ⟨⟨label, operands⟩, hn⟩ := Dag.exists_node? hid
  rw [Dag.name?, Dag.label?_of_node? hn] at hname
  rw [Dag.label?_of_node? hn] at hg
  rw [Dag.operands_of_node? hn] at hx
  rw [lowerNode, hn]
  cases h.admits hn with
  | lit => exact ⟨_, _, rfl⟩
  | var => cases hname
  | unary op =>
    obtain ⟨t, ht⟩ := operand_of_known (hx _ List.mem_cons_self)
    simp only [ht]
    exact ⟨_, _, rfl⟩
  | binary op =>
    obtain ⟨t, ht⟩ := operand_of_known (hx _ List.mem_cons_self)
    obtain ⟨u, hu⟩ := operand_of_known (hx _ (List.mem_cons_of_mem _ List.mem_cons_self))
    simp only [ht, hu]
    exact ⟨_, _, rfl⟩
  | gradient => cases hg

/-- The variables under a node are known, and there is no gradient under it. -/
structure Ready (d : Dag α) (s : Lowering) (node : NodeId) : Prop where
  known : ∀ v, d.Reaches node v → (d.name? v).isSome → s.Known v
  not_gradient : ∀ id, d.Reaches node id → (d.label? id).any Label.isGradient = false

theorem exists_lowerAll (h : d.Lawful) {node : NodeId} (hnode : node < d.count) {w : Walk}
    (hc : Walk.Covers d node w) (hr : Ready d s node) {done todo : List NodeId}
    (ho : w.order.toList = done ++ todo) (hdone : ∀ x ∈ done, s.Known x) :
    ∃ s', lowerAll d todo s = (.ok (), s') := by
  induction todo generalizing done s with
  | nil => exact ⟨s, rfl⟩
  | cons id todo ih =>
    have ho' : w.order.toList = (done ++ [id]) ++ todo := by simpa using ho
    have hreach : d.Reaches node id := (hc.mem_order_iff id).1 (by simp [ho])
    by_cases hk : s.Known id
    · rw [lowerAll_cons_of_known hk]
      exact ih hr ho' (List.forall_mem_append.2 ⟨hdone, List.forall_mem_singleton.2 hk⟩)
    · have hname : d.name? id = none :=
        Option.not_isSome_iff_eq_none.1 fun hsome => hk (hr.known id hreach hsome)
      obtain ⟨t, i, hl⟩ := exists_lowerNode h (hreach.lt_count h.wellFormed hnode) hname
        (hr.not_gradient id hreach) fun x hx => hdone x (hc.settled done id todo ho x hx)
      have hkeeps := keeps_add hk t i
      rw [lowerAll_cons_ok hk hl]
      exact ih ⟨fun v hv hsome => hkeeps.known (hr.known v hv hsome), hr.not_gradient⟩ ho'
        (List.forall_mem_append.2 ⟨fun x hx => hkeeps.known (hdone x hx),
          List.forall_mem_singleton.2 (known_add s id t i)⟩)

theorem exists_lower (h : d.Lawful) {node : NodeId} (hnode : node < d.count)
    (hr : Ready d s node) : ∃ t s', lower d node s = (.ok t, s') := by
  rw [lower]
  cases hv : s.values[node]? with
  | some t => exact ⟨t, s, rfl⟩
  | none =>
    have hc := Dag.walk_covers h.wellFormed hnode
    obtain ⟨s', hs'⟩ := exists_lowerAll h hnode hc hr (List.nil_append _).symm
      fun x hx => absurd hx List.not_mem_nil
    obtain ⟨t, ht⟩ :=
      operand_of_known ((lowerAll_keeps hs').2 node ((hc.mem_order_iff node).2 .refl))
    exact ⟨t, s', by rw [hs']; simp only [ht]⟩

theorem exists_lowerList (h : d.Lawful) {nodes : List NodeId} (hlt : ∀ node ∈ nodes, node < d.count)
    (hr : ∀ node ∈ nodes, Ready d s node) :
    ∃ ts s', lowerList d nodes s = (.ok ts, s') ∧ ts.length = nodes.length := by
  induction nodes generalizing s with
  | nil => exact ⟨[], s, rfl, rfl⟩
  | cons node nodes ih =>
    obtain ⟨hlt, hlts⟩ := List.forall_mem_cons.1 hlt
    obtain ⟨hr, hrs⟩ := List.forall_mem_cons.1 hr
    obtain ⟨t, s₁, ht⟩ := exists_lower h hlt hr
    have hkeeps := lower_keeps ht
    obtain ⟨ts, s', hts, hlen⟩ := ih hlts fun x hx =>
      ⟨fun v hv hsome => hkeeps.known ((hrs x hx).known v hv hsome), (hrs x hx).not_gradient⟩
    refine ⟨t :: ts, s', ?_, congrArg (· + 1) hlen⟩
    rw [lowerList, attempt_bind, ht]
    dsimp only
    rw [attempt_bind, hts]
    rfl

theorem known_bindAll {vars : List (NodeId × String)} {v : NodeId}
    (hv : s.Known v ∨ v ∈ vars.map Prod.fst) : (bindAll vars s).Known v := by
  induction vars generalizing s with
  | nil => simpa [bindAll] using hv
  | cons var vars ih =>
    refine ih ?_
    by_cases he : var.1 = v
    · exact Or.inl (by simp [Known, values_bind, he])
    · refine hv.imp (fun hk => ?_) fun hm => ?_
      · rwa [Known, values_bind, if_neg he]
      · exact (List.mem_cons.1 hm).resolve_left (Ne.symm he)

/-- There is a function for a root if there is no gradient under its results; it has a result for
each of them. -/
theorem exists_program (h : d.Lawful) (hroot : root < d.count)
    (hr : ∀ node ∈ d.resultNodes root, d.Reaches root node)
    (hg : ∀ node ∈ d.resultNodes root, ∀ id, d.Reaches node id →
      (d.label? id).any Label.isGradient = false) (options : CodeOptions) :
    ∃ ts s, d.program root options = .ok (complete d root options ts s) ∧
      ts.length = (d.resultNodes root).length := by
  have hvars : ∀ v, d.Reaches root v → (d.name? v).isSome →
      (bindAll (d.namedVars root) start).Known v := by
    intro v hv hsome
    obtain ⟨name, hname⟩ := Option.isSome_iff_exists.1 hsome
    have hmem : (v, name) ∈ d.namedVars root :=
      List.mem_filterMap.2 ⟨v, (Dag.walk_covers h.wellFormed hroot).mem_freeVars_iff.2 ⟨hv, hsome⟩,
        by simp [hname]⟩
    exact known_bindAll (Or.inr (List.mem_map.2 ⟨_, hmem, rfl⟩))
  obtain ⟨ts, s, hl, hlen⟩ := exists_lowerList h
    (fun node hm => (hr node hm).lt_count h.wellFormed hroot)
    fun node hm => ⟨fun v hv hsome => hvars v ((hr node hm).trans hv) hsome, hg node hm⟩
  refine ⟨ts, s, ?_, hlen⟩
  rw [program_eq hroot, hl]

end Lowering

end SharedExpr

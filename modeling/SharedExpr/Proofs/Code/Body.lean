import SharedExpr.Proofs.Code.Completion
import SharedExpr.Proofs.Dag.PostOrder

/-! The body of a function: an instruction for each operator under its root, in the order of a
single walk. -/
namespace SharedExpr

variable {α : Type} [Scalar α] [ReadableText α] {d : Dag α} {root : NodeId}

/-- The instruction for an operator, which defines the register of its result from the values of its
operands. -/
def Dag.instruction? (d : Dag α) (id : NodeId) : Option Instruction :=
  let dest := (Register.result id).text
  match d.node? id with
  | some ⟨.unary op, [x]⟩ => some (op.instruction dest (d.valueText x))
  | some ⟨.binary op, [x, y]⟩ => some (op.instruction dest (d.valueText x) (d.valueText y))
  | _ => none

theorem Dag.instruction?_of_var {id : NodeId} {name : String} {operands : List NodeId}
    (h : d.node? id = some ⟨.var name, operands⟩) : d.instruction? id = none := by
  rw [instruction?, h]

theorem Dag.instruction?_of_gradient {id : NodeId} {vars operands : List NodeId}
    (h : d.node? id = some ⟨.gradient vars, operands⟩) : d.instruction? id = none := by
  rw [instruction?, h]

namespace Lowering

variable {s s' : Lowering} {vars done : List NodeId}

/-- A lowering that has dealt with some nodes in order: besides the variables it knows the values of
these nodes, among which there is no gradient, and it has the instructions for them. -/
structure Follows (d : Dag α) (vars : List NodeId) (s : Lowering) (done : List NodeId) : Prop where
  known_iff : ∀ x, s.Known x ↔ x ∈ vars ∨ x ∈ done
  text : ∀ (x : NodeId) (t : String), s.values[x]? = some t → t = d.valueText x
  body : s.body.toList = done.filterMap d.instruction?
  not_gradient : ∀ x ∈ done, (d.label? x).any Label.isGradient = false

theorem lowerNode_eq_ok (h : d.Lawful)
    (ht : ∀ (x : NodeId) (t : String), s.values[x]? = some t → t = d.valueText x) {id : NodeId}
    {t : String} {i : Option Instruction} (hn : lowerNode d s id = .ok (t, i)) :
    t = d.valueText id ∧ i = d.instruction? id ∧ (d.label? id).any Label.isGradient = false := by
  cases hnode : d.node? id with
  | none =>
    rw [lowerNode, hnode] at hn
    cases hn
  | some node =>
    rw [lowerNode, hnode] at hn
    rw [Dag.valueText, Dag.instruction?, hnode, Dag.label?_of_node? hnode]
    cases h.admits hnode with
    | lit =>
      cases hn
      exact ⟨rfl, rfl, rfl⟩
    | var | gradient => cases hn
    | @unary op x =>
      obtain ⟨tx, hx, hn⟩ := Except.bind_eq_ok hn
      cases hn
      rw [ht x tx (operand_eq_ok hx)]
      exact ⟨rfl, rfl, rfl⟩
    | @binary op x y =>
      obtain ⟨tx, hx, hn⟩ := Except.bind_eq_ok hn
      obtain ⟨ty, hy, hn⟩ := Except.bind_eq_ok hn
      cases hn
      rw [ht x tx (operand_eq_ok hx), ht y ty (operand_eq_ok hy)]
      exact ⟨rfl, rfl, rfl⟩

namespace Follows

/-- A variable may be passed over at any time. -/
theorem pass (hf : Follows d vars s done) (h : d.Lawful) {v : NodeId} (hv : v ∈ vars)
    (hname : (d.name? v).isSome) : Follows d vars s (done ++ [v]) := by
  obtain ⟨name, hname⟩ := Option.isSome_iff_exists.1 hname
  have hnode := h.node?_of_name? hname
  refine ⟨fun x => ?_, hf.text, ?_, List.forall_mem_append.2 ⟨hf.not_gradient, ?_⟩⟩
  · rw [hf.known_iff, List.mem_append, List.mem_singleton]
    constructor
    · exact Or.imp_right Or.inl
    · rintro (hx | hx | rfl)
      · exact Or.inl hx
      · exact Or.inr hx
      · exact Or.inl hv
  · rw [List.filterMap_append, hf.body]
    simp [Dag.instruction?_of_var hnode]
  · simp [Dag.label?_of_node? hnode, Label.isGradient]

theorem add (hf : Follows d vars s done) (h : d.Lawful) {id : NodeId} {t : String}
    {i : Option Instruction} (hn : lowerNode d s id = .ok (t, i)) :
    Follows d vars (s.add id t i) (done ++ [id]) := by
  obtain ⟨ht, hi, hg⟩ := lowerNode_eq_ok h hf.text hn
  refine ⟨fun x => ?_, fun x u hu => ?_, ?_,
    List.forall_mem_append.2 ⟨hf.not_gradient, List.forall_mem_singleton.2 hg⟩⟩
  · rw [Known, values_add, List.mem_append, List.mem_singleton, ← or_assoc, ← hf.known_iff]
    by_cases hx : id = x
    · simp [hx]
    · rw [if_neg hx, or_iff_left (Ne.symm hx)]
      rfl
  · rw [values_add] at hu
    split at hu
    · next hx => rw [← Option.some.inj hu, ← hx, ht]
    · exact hf.text x u hu
  · rw [List.filterMap_append, ← hf.body, hi]
    cases hd : d.instruction? id <;> simp [Lowering.add, hd]

variable (h : d.Lawful) (hvars : ∀ v ∈ vars, (d.name? v).isSome)
include h hvars

theorem lowerAll {nodes : List NodeId} (hnodup : nodes.Nodup) (hf : Follows d vars s done)
    (hn : Lowering.lowerAll d nodes s = (.ok (), s')) :
    Follows d vars s' (done ++ nodes.filter (· ∉ done)) := by
  induction nodes generalizing s done with
  | nil =>
    cases hn
    simpa using hf
  | cons id nodes ih =>
    obtain ⟨hid, hnodup⟩ := List.nodup_cons.1 hnodup
    -- The others are left out by what was done before, whether or not the first one was.
    have hrest : ∀ x ∈ nodes, decide (x ∉ done ++ [id]) = decide (x ∉ done) := by
      intro x hx
      have hne : x ≠ id := fun he => hid (he ▸ hx)
      simp [hne]
    have hlist : id ∉ done → done ++ (id :: nodes).filter (· ∉ done) =
        (done ++ [id]) ++ nodes.filter (· ∉ done ++ [id]) := by
      intro hdone
      rw [List.filter_congr hrest, List.filter_cons_of_pos (by simpa using hdone),
        List.append_assoc, List.singleton_append]
    by_cases hk : s.Known id
    · rw [lowerAll_cons_of_known hk] at hn
      by_cases hdone : id ∈ done
      · rw [List.filter_cons_of_neg (by simpa using hdone)]
        exact ih hnodup hf hn
      · have hv := ((hf.known_iff id).1 hk).resolve_right hdone
        rw [hlist hdone]
        exact ih hnodup (hf.pass h hv (hvars id hv)) hn
    · have hdone : id ∉ done := fun hm => hk ((hf.known_iff id).2 (Or.inr hm))
      obtain ⟨t, i, hl, hn⟩ := lowerAll_cons_eq_ok hk hn
      rw [hlist hdone]
      exact ih hnodup (hf.add h hl) hn

/-- The lowering of a node follows a walk that leaves out what was done before. -/
theorem lower (hclosed : d.Closed done) (hf : Follows d vars s done) {id : NodeId}
    (hid : id < d.count) {t : String} (hn : Lowering.lower d id s = (.ok t, s')) :
    Follows d vars s' (d.postOrder id done) := by
  obtain ⟨hv, rfl | hl⟩ := lower_eq_ok hn
  · by_cases hdone : id ∈ done
    · rwa [Dag.postOrder_of_mem hdone]
    · have hvar := ((hf.known_iff id).1 (Option.isSome_of_eq_some hv)).resolve_right hdone
      obtain ⟨name, hname⟩ := Option.isSome_iff_exists.1 (hvars id hvar)
      rw [Dag.postOrder_of_not_mem h.wellFormed hdone,
        Dag.operands_of_node? (h.node?_of_name? hname)]
      exact hf.pass h hvar (hvars id hvar)
  · rw [Dag.postOrder_eq_walk h.wellFormed hclosed hid]
    exact lowerAll h hvars (Dag.walk_covers h.wellFormed hid).nodup hf hl

theorem lowerList {ids : List NodeId} (hids : ∀ id ∈ ids, id < d.count) (hclosed : d.Closed done)
    (hf : Follows d vars s done) {ts : List String}
    (hn : Lowering.lowerList d ids s = (.ok ts, s')) :
    Follows d vars s' (d.postOrders ids done) := by
  induction ids generalizing s done ts with
  | nil =>
    cases hn
    exact hf
  | cons id ids ih =>
    obtain ⟨hid, hids⟩ := List.forall_mem_cons.1 hids
    obtain ⟨t, rest, s₁, hl, hr, -⟩ := lowerList_cons_eq_ok hn
    exact ih hids (hclosed.postOrder h.wellFormed hid) (lower h hvars hclosed hf hid hl) hr

end Follows

theorem values_bindAll {named : List (NodeId × String)} {x : NodeId} {t : String}
    (h : (bindAll named s).values[x]? = some t) :
    s.values[x]? = some t ∨ ∃ name, (x, name) ∈ named ∧ t = (Register.value name).text := by
  induction named generalizing s with
  | nil => exact Or.inl h
  | cons var named ih =>
    obtain ⟨v, name⟩ := var
    rcases ih h with h | ⟨n, hn, ht⟩
    · rw [values_bind] at h
      split at h
      · next hv => exact Or.inr ⟨name, hv ▸ List.mem_cons_self, (Option.some.inj h).symm⟩
      · exact Or.inl h
    · exact Or.inr ⟨n, List.mem_cons_of_mem _ hn, ht⟩

theorem body_bindAll (named : List (NodeId × String)) (s : Lowering) :
    (bindAll named s).body = s.body := by
  induction named generalizing s with
  | nil => rfl
  | cons var named ih => exact ih _

theorem follows_bindAll (h : d.Lawful) (hroot : root < d.count) :
    Follows d (d.freeVars root) (bindAll (d.namedVars root) start) [] where
  known_iff x := by
    rw [or_iff_left List.not_mem_nil]
    constructor
    · intro hk
      obtain ⟨t, ht⟩ := Option.isSome_iff_exists.1 hk
      rcases values_bindAll ht with hs | ⟨name, hm, -⟩
      · simp [start] at hs
      · obtain ⟨v, hv, hvn⟩ := List.mem_filterMap.1 hm
        obtain ⟨n, -, he⟩ := Option.map_eq_some_iff.1 hvn
        cases he
        exact hv
    · intro hx
      obtain ⟨name, hname⟩ := Option.isSome_iff_exists.1
        ((Dag.walk_covers h.wellFormed hroot).mem_freeVars_iff.1 hx).2
      exact known_bindAll (Or.inr (List.mem_map.2
        ⟨(x, name), List.mem_filterMap.2 ⟨x, hx, by simp [hname]⟩, rfl⟩))
  text x t ht := by
    rcases values_bindAll ht with hs | ⟨name, hm, rfl⟩
    · simp [start] at hs
    · rw [Dag.valueText, Dag.label?_of_node? (h.node?_of_name? (Dag.name?_of_mem_namedVars hm))]
  body := by rw [body_bindAll]; rfl
  not_gradient := by simp

end Lowering

namespace Dag

/-- The walks of the results of a root are the walk of the root, but for the root if it is a
gradient. -/
theorem walk_order_resultNodes (h : d.Lawful) (hroot : root < d.count) :
    ∃ rest, (d.walk root).order.toList = d.postOrders (d.resultNodes root) [] ++ rest ∧
      rest.filterMap d.instruction? = [] ∧ ∀ x ∈ rest, x = root := by
  rw [walk_order h.wellFormed hroot, resultNodes]
  cases hb : d.bundle? root with
  | none => exact ⟨[], by simp, rfl, by simp⟩
  | some parts =>
    have hn := bundle?_eq_some_iff.1 hb
    refine ⟨[root], ?_, by simp [instruction?_of_gradient hn], by simp⟩
    rw [postOrder_of_not_mem h.wellFormed List.not_mem_nil, operands_of_node? hn]

end Dag

namespace Lowering

variable {options : CodeOptions} {p : Program} {s : Lowering}

theorem follows_program (h : d.Lawful) (hp : d.program root options = .ok p) :
    ∃ s, p.body = s.body.toList ∧
      Follows d (d.freeVars root) s (d.postOrders (d.resultNodes root) []) := by
  obtain ⟨hroot, ts, s, hl, rfl⟩ := program_eq_ok hp
  have hvars : ∀ v ∈ d.freeVars root, (d.name? v).isSome := fun v hv =>
    ((Dag.walk_covers h.wellFormed hroot).mem_freeVars_iff.1 hv).2
  exact ⟨s, rfl, Follows.lowerList h hvars (Dag.resultNodes_lt h hroot) (by simp [Dag.Closed])
    (follows_bindAll h hroot) hl⟩

/-- The body has the instructions of the operators under the root, in the order of its walk. -/
theorem body_eq (h : d.Lawful) (hp : d.program root options = .ok p) :
    p.body = (d.walk root).order.toList.filterMap d.instruction? := by
  obtain ⟨s, hbody, hf⟩ := follows_program h hp
  obtain ⟨rest, horder, hrest, -⟩ := Dag.walk_order_resultNodes h (program_eq_ok hp).1
  rw [hbody, hf.body, horder, List.filterMap_append, hrest, List.append_nil]

/-- There is no gradient under the root of a function, but the root may be one. -/
theorem not_gradient_of_program (h : d.Lawful) (hp : d.program root options = .ok p) {id : NodeId}
    (hr : d.Reaches root id) (hne : id ≠ root) : (d.label? id).any Label.isGradient = false := by
  have hroot := (program_eq_ok hp).1
  obtain ⟨s, -, hf⟩ := follows_program h hp
  obtain ⟨rest, horder, -, hrest⟩ := Dag.walk_order_resultNodes h hroot
  have hmem := ((Dag.walk_covers h.wellFormed hroot).mem_order_iff id).2 hr
  rw [horder, List.mem_append] at hmem
  exact hf.not_gradient id (hmem.resolve_right fun hm => hne (hrest id hm))

theorem operand_eq_error {id : NodeId} {fault : Fault} (hx : s.operand id = .error fault) :
    ∃ cause, fault = .misuse cause := by
  rw [operand] at hx
  split at hx
  · cases hx
  · exact ⟨_, (Except.error.inj hx).symm⟩

theorem lowerNode_eq_error {id : NodeId} {fault : Fault} (hn : lowerNode d s id = .error fault) :
    ∃ cause, fault = .misuse cause := by
  rw [lowerNode] at hn
  split at hn
  · cases hn
  · exact ⟨_, (Except.error.inj hn).symm⟩
  · next x _ _ =>
    cases hx : s.operand x with
    | error fault' =>
      rw [hx] at hn
      exact Except.error.inj hn ▸ operand_eq_error hx
    | ok =>
      rw [hx] at hn
      cases hn
  · next x y _ _ =>
    cases hx : s.operand x with
    | error fault' =>
      rw [hx] at hn
      exact Except.error.inj hn ▸ operand_eq_error hx
    | ok =>
      cases hy : s.operand y with
      | error fault' =>
        rw [hx, hy] at hn
        exact Except.error.inj hn ▸ operand_eq_error hy
      | ok =>
        rw [hx, hy] at hn
        cases hn
  · exact ⟨_, (Except.error.inj hn).symm⟩
  · exact ⟨_, (Except.error.inj hn).symm⟩

theorem lowerAll_eq_error {nodes : List NodeId} {fault : Fault}
    (hn : (lowerAll d nodes s).1 = .error fault) : ∃ cause, fault = .misuse cause := by
  induction nodes generalizing s with
  | nil => cases hn
  | cons x nodes ih =>
    rw [lowerAll] at hn
    split at hn
    · exact ih hn
    · cases hl : lowerNode d s x with
      | ok lowered =>
        rw [hl] at hn
        exact ih hn
      | error fault' =>
        rw [hl] at hn
        exact Except.error.inj hn ▸ lowerNode_eq_error hl

theorem lower_eq_error {id : NodeId} {fault : Fault}
    (hn : (lower d id s : Except Fault String × Lowering).1 = .error fault) :
    ∃ cause, fault = .misuse cause := by
  rw [lower] at hn
  split at hn
  · cases hn
  · rcases hl : lowerAll d (d.walk id).order.toList s with ⟨o, s₁⟩
    rw [hl] at hn
    cases o with
    | error fault' =>
      obtain rfl := Except.error.inj hn
      exact lowerAll_eq_error (congrArg Prod.fst hl)
    | ok => exact operand_eq_error hn

theorem lowerList_eq_error {ids : List NodeId} {fault : Fault}
    (hn : (lowerList d ids s : Except Fault (List String) × Lowering).1 = .error fault) :
    ∃ cause, fault = .misuse cause := by
  induction ids generalizing s with
  | nil => cases hn
  | cons id ids ih =>
    rw [lowerList, attempt_bind] at hn
    rcases hl : (lower d id s : Except Fault String × Lowering) with ⟨o, s₁⟩
    rw [hl] at hn
    cases o with
    | error fault' =>
      obtain rfl := Except.error.inj hn
      exact lower_eq_error (congrArg Prod.fst hl)
    | ok t =>
      dsimp only at hn
      rw [attempt_bind] at hn
      rcases hr : (lowerList d ids s₁ : Except Fault (List String) × Lowering) with ⟨o, s₂⟩
      rw [hr] at hn
      cases o with
      | error fault' =>
        obtain rfl := Except.error.inj hn
        exact ih (congrArg Prod.fst hr)
      | ok => cases hn

theorem program_eq_error {fault : Fault} (hp : d.program root options = .error fault) :
    ∃ cause, fault = .misuse cause := by
  by_cases hroot : root < d.count
  · rw [program_eq hroot] at hp
    rcases hl : (lowerList d (d.resultNodes root) (bindAll (d.namedVars root) start) :
      Except Fault (List String) × Lowering) with ⟨o, s⟩
    rw [hl] at hp
    cases o with
    | error fault' =>
      obtain rfl := Except.error.inj hp
      exact lowerList_eq_error (congrArg Prod.fst hl)
    | ok => cases hp
  · exact ⟨.foreign root, Except.error.inj (hp.symm.trans (program_of_foreign hroot))⟩

/-- There is a function for a root unless it is no node of the graph or there is a gradient under
it, the root itself apart. -/
theorem exists_program_iff (h : d.Lawful) :
    (∃ p, d.program root options = .ok p) ↔ root < d.count ∧
      ∀ id, d.Reaches root id → id ≠ root → (d.label? id).any Label.isGradient = false := by
  constructor
  · rintro ⟨p, hp⟩
    exact ⟨(program_eq_ok hp).1, fun id hr hne => not_gradient_of_program h hp hr hne⟩
  · rintro ⟨hroot, hg⟩
    obtain ⟨ts, s, hp, -⟩ := exists_program h hroot
      (fun x hx => (Dag.gradientFree_resultNodes h hroot hg hx).1)
      (fun x hx => (Dag.gradientFree_resultNodes h hroot hg hx).2) options
    exact ⟨_, hp⟩

end Lowering

end SharedExpr

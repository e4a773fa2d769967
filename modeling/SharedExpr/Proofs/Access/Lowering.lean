import SharedExpr.Access.Lowering
import SharedExpr.Proofs.Access.Walk
import SharedExpr.Proofs.Code.Completion

/-! Lowering makes no access out of range. -/
namespace SharedExpr.Access

variable {α : Type} [Scalar α] [ScalarText α] {d : Dag α} {s : Lowering}

theorem lowerNode_eq (h : d.Lawful) {node : NodeId} (hnode : node < d.count) :
    lowerNode d s node = some (Lowering.lowerNode d s node) := by
  obtain ⟨⟨label, operands⟩, hn⟩ := Dag.exists_node? hnode
  rw [lowerNode, Lowering.lowerNode, Dag.labelAt_of_node? hn,
    Dag.operandsAt_of_node? h.wellFormed hn, hn]
  cases h.admits hn with
  | lit | var | gradient => rfl
  | @unary op x =>
    simp only [Option.bind_eq_bind, Option.bind_some, List.getElem?_cons_zero]
    cases s.operand x <;> rfl
  | @binary op x y =>
    simp only [Option.bind_eq_bind, Option.bind_some, List.getElem?_cons_zero]
    cases s.operand x with
    | error fault => rfl
    | ok t =>
      simp only [List.getElem?_cons_succ, List.getElem?_cons_zero, Option.bind_some]
      cases s.operand y <;> rfl

theorem lowerAll_eq (h : d.Lawful) {nodes : List NodeId} (hn : ∀ node ∈ nodes, node < d.count) :
    lowerAll d nodes s = some (Lowering.lowerAll d nodes s) := by
  induction nodes generalizing s with
  | nil => rfl
  | cons node nodes ih =>
    obtain ⟨hnode, hn⟩ := List.forall_mem_cons.1 hn
    rw [lowerAll, Lowering.lowerAll]
    split
    · exact ih hn
    · simp only [lowerNode_eq h hnode, Option.bind_eq_bind, Option.bind_some]
      rcases Lowering.lowerNode d s node with fault | ⟨value, instruction⟩
      · rfl
      · exact ih hn

theorem lower_eq (h : d.Lawful) {node : NodeId} (hnode : node < d.count) :
    lower d node s = some (Lowering.lower d node s) := by
  rw [lower, Lowering.lower]
  cases s.values[node]? with
  | some value => rfl
  | none =>
    have horder := (Dag.walk_covers h.wellFormed hnode).order_lt h.wellFormed hnode
    dsimp only
    rw [walk_eq h.wellFormed hnode, Option.bind_eq_bind, Option.bind_some, lowerAll_eq h horder]
    rcases Lowering.lowerAll d (d.walk node).order.toList s with ⟨fault | ok, s'⟩ <;> rfl

theorem lowerList_eq (h : d.Lawful) {nodes : List NodeId} (hn : ∀ node ∈ nodes, node < d.count) :
    lowerList d nodes s = some (Lowering.lowerList d nodes s) := by
  induction nodes generalizing s with
  | nil => rfl
  | cons node nodes ih =>
    obtain ⟨hnode, hn⟩ := List.forall_mem_cons.1 hn
    rw [lowerList, lower_eq h hnode, Lowering.lowerList, Lowering.attempt_bind]
    rcases (Lowering.lower d node s : Except Fault String × Lowering) with ⟨fault | value, s'⟩
    · rfl
    · simp only [Option.bind_eq_bind, Option.bind_some, ih hn, Lowering.attempt_bind]
      rcases (Lowering.lowerList d nodes s' : Except Fault (List String) × Lowering) with
        ⟨fault | values, s''⟩ <;> rfl

theorem program_eq (h : d.Lawful) (root : NodeId) (options : CodeOptions) :
    program d root options = some (d.program root options) := by
  by_cases hroot : root < d.count
  · have hvars := (Dag.walk_covers h.wellFormed hroot).freeVars_lt h.wellFormed hroot
    have hnamed : (d.walk root).freeVars.mapM (fun var =>
        (d.nameAt var).map fun name => name.map (var, ·)) =
        some ((d.walk root).freeVars.map fun var => (d.name? var).map (var, ·)) :=
      mapM_eq fun v hv => by rw [Dag.nameAt_eq (hvars v hv)]; rfl
    have hvarsEq : ((d.walk root).freeVars.map fun var => (d.name? var).map (var, ·)).filterMap id =
        d.namedVars root := List.filterMap_map
    have hlist := lowerList_eq (s := Lowering.bindAll (d.namedVars root) .start) h
      (Dag.resultNodes_lt h hroot)
    rw [Lowering.program_eq hroot, program, Dag.check_of_lt hroot]
    simp only [walk_eq h.wellFormed hroot, hnamed, Dag.bundleAt_eq h hroot, hvarsEq,
      Option.bind_eq_bind, Option.bind_some, Dag.map_snd_namedVars]
    refine (congrArg (Option.bind · _) hlist).trans ?_
    rcases (Lowering.lowerList d (d.resultNodes root) (Lowering.bindAll (d.namedVars root) .start) :
      Except Fault (List String) × Lowering) with ⟨fault | ts, s'⟩ <;> rfl
  · rw [program, Dag.check_of_not_lt hroot, Dag.program, Lowering.program,
      Dag.check_of_not_lt hroot]
    rfl

theorem code_eq (h : d.Lawful) (root : NodeId) (options : CodeOptions) :
    code d root options = some (d.code root options) := by
  rw [code, program_eq h, Dag.code]
  rfl

end SharedExpr.Access

import Mathlib
import SharedExpr.Proofs.Code.Completion
import SharedExpr.Proofs.Code.Convention
import SharedExpr.Proofs.Double.Constant
import SharedExpr.Proofs.Session

/-! The function for a node computes what the evaluation of the node computes. -/
namespace SharedExpr

variable {α : Type} [Scalar α] {d : Dag α} {root : NodeId}

namespace Lowering

variable [ReadableText α] {options : CodeOptions} {p : Program} {ρ : String → α}

theorem simulated_bindAll (h : d.Lawful) {vars : List (NodeId × String)} {m : Machine α}
    {s : Lowering} (hs : Simulated d ρ m s m)
    (hvars : ∀ v name, (v, name) ∈ vars →
      d.name? v = some name ∧ m.registers (Register.value name).text = some (.number (ρ name))) :
    Simulated d ρ m (bindAll vars s) m := by
  induction vars generalizing s with
  | nil => exact hs
  | cons var vars ih =>
    obtain ⟨v, name⟩ := var
    obtain ⟨hname, hreg⟩ := hvars v name List.mem_cons_self
    have hnode := h.node?_of_name? hname
    have ht : (Register.value name).text = d.valueText v := by
      rw [Dag.valueText, Dag.label?_of_node? hnode]
    have hv : m.operand? (Register.value name).text = some (d.denote ρ v) := by
      rw [Machine.operand?_text hreg, Dag.denote_eq h.wellFormed ρ hnode]
      rfl
    exact ih (hs.bind ht hv) fun w n hw => hvars w n (List.mem_cons_of_mem _ hw)

/-- With the variables bound, the body computes the results. -/
theorem executeAll_body (h : d.Lawful) {m : Machine α} {values : List α} {ts : List String}
    {s : Lowering} (hb : Binds m.registers (d.varNames root) values)
    (hl : lowerList d (d.resultNodes root) (bindAll (d.namedVars root) start) = (.ok ts, s)) :
    ∃ m', m.executeAll s.body.toList = some m' ∧ m'.memory = m.memory ∧ m'.stores = m.stores ∧
      (∀ r : Register, (∀ id, r ≠ .result id) → m'.registers r.text = m.registers r.text) ∧
      m'.Reads ts ((d.resultNodes root).map (d.denote (d.assignmentAt root values))) ∧
      ∀ t ∈ ts, ∀ i, t ≠ (Register.slot i).text ∧ t ≠ (Register.aggregate i).text := by
  let ρ := d.assignmentAt root values
  have hstart : Simulated d ρ m start m :=
    ⟨rfl, by simp [start], by simp [start], rfl, rfl, fun _ _ => rfl⟩
  have hvars : ∀ v name, (v, name) ∈ d.namedVars root → d.name? v = some name ∧
      m.registers (Register.value name).text = some (.number (ρ name)) := by
    intro v name hv
    have hname : name ∈ d.varNames root :=
      d.map_snd_namedVars root ▸ List.mem_map.2 ⟨(v, name), hv, rfl⟩
    obtain ⟨x, hx, hreg⟩ := Bindings.exists_of_forall₂ hb hname
    have hρ : ρ name = x := (congrArg (fun o => Option.getD o Scalar.zero) hx).trans rfl
    exact ⟨Dag.name?_of_mem_namedVars hv, hρ ▸ hreg⟩
  obtain ⟨m', hm'⟩ := lowerList_simulated h.wellFormed (simulated_bindAll h hstart hvars) hl
  have hall := (lowerList_keeps hl).2
  have hts : List.Forall₂ (fun t id =>
      (∀ i, t ≠ (Register.slot i).text ∧ t ≠ (Register.aggregate i).text) ∧
        m'.operand? t = some (d.denote ρ id)) ts (d.resultNodes root) := by
    refine hall.flip.imp fun t id ht => ⟨fun i => ?_, hm'.value id t ht⟩
    rw [hm'.text id t ht]
    exact ⟨d.valueText_ne id nofun nofun, d.valueText_ne id nofun nofun⟩
  obtain ⟨hne, hreads⟩ := (List.forall₂_and_left _ _).1 hts
  exact ⟨m', hm'.executes, hm'.memory, hm'.stores, hm'.registers,
    List.forall₂_map_right_iff.2 hreads, hne⟩

/-- A function of numbers returns the value of the node, or an aggregate of those of its parts. -/
theorem call_scalar (h : d.Lawful) (hc : options.convention = .scalar)
    (hp : d.program root options = .ok p) {values : List α}
    (hv : values.length = (d.varNames root).length) (memory : Nat → α) :
    p.call (values.map .number) memory = some
      ⟨if (d.bundle? root).isSome then
          .aggregate ((d.resultNodes root).map (d.denote (d.assignmentAt root values)))
        else .number (d.denote (d.assignmentAt root values) root), memory, []⟩ := by
  obtain ⟨hroot, ts, s, hl, rfl⟩ := program_eq_ok hp
  obtain ⟨registers, hparams, hb⟩ := parameters?_scalar (Dag.nodup_varNames h hroot) hv
  obtain ⟨m', hexec, hmemory, hstores, -, hreads, hne⟩ :=
    executeAll_body (m := ⟨registers, memory, []⟩) h hb hl
  have hparams' : parameters? (complete d root options ts s).params (values.map .number) =
      some registers := by
    rw [complete, hc]
    exact hparams
  have hrun : (complete d root options ts s).instructions =
      s.body.toList ++ (epilogue .scalar ts (d.bundle? root).isSome).2 := by
    simp [complete, hc, Program.instructions, prologue]
  have hreturns : (complete d root options ts s).returns =
      (epilogue .scalar ts (d.bundle? root).isSome).1 := by
    rw [complete, hc]
  rw [Program.call, hparams', Option.bind_some, hrun, Machine.run_append hexec, hreturns]
  rw [Dag.resultNodes] at hreads ⊢
  cases hbundle : d.bundle? root with
  | none =>
    rw [hbundle] at hreads
    obtain ⟨t, ht, rfl⟩ : ∃ t, m'.operand? t = some (d.denote (d.assignmentAt root values) root) ∧
        ts = [t] := by
      cases hreads with
      | cons ht hnil =>
        cases hnil
        exact ⟨_, ht, rfl⟩
    have hexit := run_number ht
    rw [hmemory, hstores] at hexit
    exact hexit
  | some parts =>
    rw [hbundle] at hreads
    have hexit := run_members hreads (List.cons_ne_nil _ _) fun t ht i => (hne t ht i).2
    rw [hmemory, hstores] at hexit
    exact hexit

/-- A function of buffers stores the value of the node, or those of its parts, and nothing else. -/
theorem call_buffer (h : d.Lawful) (hc : options.convention = .buffer)
    (hp : d.program root options = .ok p) {values : List α}
    (hv : values.length = (d.varNames root).length) {memory : Nat → α} {input : Nat} (output : Nat)
    (hinput : ∀ i (hi : i < values.length), memory (input + i) = values[i]) :
    p.call [.pointer input, .pointer output] memory = some
      ⟨.void, writeAt memory output
          ((d.resultNodes root).map (d.denote (d.assignmentAt root values))),
        List.range' output (d.resultNodes root).length⟩ := by
  obtain ⟨hroot, ts, s, hl, rfl⟩ := program_eq_ok hp
  obtain ⟨registers, hparams, hin, hout⟩ := parameters?_buffer (d.varNames root) input output
  have hmemory : ∀ i (hi : i < values.length), memory (input + (0 + i)) = values[i] := by
    simpa using hinput
  obtain ⟨m₁, hloads, hmem₁, hstores₁, hb, hframe⟩ :=
    executeAll_loads (m := ⟨registers, memory, []⟩) (Dag.nodup_varNames h hroot) hv hin hmemory
  obtain ⟨m', hexec, hmem, hstores, hregs, hreads, hne⟩ := executeAll_body h hb hl
  have hparams' : parameters? (complete d root options ts s).params
      [.pointer input, .pointer output] = some registers := by
    rw [complete, hc]
    exact hparams
  have hrun : (complete d root options ts s).instructions =
      prologue .buffer (d.varNames root) ++
        (s.body.toList ++ (epilogue .buffer ts (d.bundle? root).isSome).2) := by
    simp [complete, hc, Program.instructions]
  have hreturns : (complete d root options ts s).returns =
      (epilogue .buffer ts (d.bundle? root).isSome).1 := by
    rw [complete, hc]
  have hprologue : Machine.executeAll ⟨registers, memory, []⟩
      (prologue .buffer (d.varNames root)) = some m₁ :=
    hloads
  have hout' : m'.registers Register.output.text = some (.pointer output) :=
    (hregs .output nofun).trans ((hframe .output fun _ _ => ⟨nofun, nofun⟩).trans hout)
  have hexit := run_buffer hreads (fun t ht i => (hne t ht i).1) hout' (d.bundle? root).isSome
  rw [hmem, hmem₁, hstores, hstores₁, List.length_map, List.nil_append] at hexit
  rw [Program.call, hparams', Option.bind_some, hrun, Machine.run_append hprologue,
    Machine.run_append hexec, hreturns, hexit]

/-- The function for a node comes to an end, called with numbers or with pointers. -/
theorem exists_call (h : d.Lawful) (hp : d.program root options = .ok p) :
    ∃ (args : List (Value α)) (memory : Nat → α) (result : Completion α),
      p.call args memory = some result ∧ ∀ value ∈ args, ' ' ∉ value.keyword.toList := by
  let values : List α := List.replicate (d.varNames root).length Scalar.zero
  have hv : values.length = (d.varNames root).length := List.length_replicate
  cases hc : options.convention with
  | scalar =>
    exact ⟨_, _, _, call_scalar h hc hp hv fun _ => Scalar.zero,
      List.forall_mem_map.2 fun _ _ => by simp [Value.keyword]⟩
  | buffer =>
    have hinput : ∀ i (hi : i < values.length),
        writeAt (fun _ => Scalar.zero) 0 values (0 + i) = values[i] :=
      fun i hi => writeAt_slot _ 0 hi
    exact ⟨_, _, _, call_buffer h hc hp hv 0 hinput, by simp [Value.keyword]⟩

theorem readsDefined_of_program (h : d.Lawful) (hp : d.program root options = .ok p) :
    p.ReadsDefined := by
  obtain ⟨args, memory, result, hcall, hkeyword⟩ := exists_call h hp
  exact Program.readsDefined_of_call hcall hkeyword

end Lowering

namespace Dag

variable [ReadableText α]

/-- The function for a node computes what the evaluation of the node does, for all values of the
variables: it returns the value, or those of the parts of a gradient, or it stores them in the
output buffer and nothing elsewhere, wherever the two buffers are. -/
theorem Reachable.program_computes (h : d.Reachable) {options : CodeOptions} {p : Program}
    (hp : d.program root options = .ok p) {values : List α}
    (hv : values.length = (d.freeVars root).length) :
    (d.freeVars root).Nodup ∧
    (∀ v, v ∈ d.freeVars root ↔ d.Reaches root v ∧ (d.name? v).isSome) ∧
    ∃ value results, d.evaluateAt root values = .ok value ∧ d.resultsAt root values = .ok results ∧
      results.length = (if (d.bundle? root).isSome then (d.operands root).length else 1) ∧
      (options.convention = .scalar → ∀ memory,
        p.call (values.map .number) memory = some
          ⟨if (d.bundle? root).isSome then .aggregate results else .number value, memory, []⟩) ∧
      (options.convention = .buffer → ∀ memory input output,
        (∀ i (hi : i < values.length), memory (input + i) = values[i]) →
          p.call [.pointer input, .pointer output] memory = some
            ⟨.void, writeAt memory output results, List.range' output results.length⟩) ∧
      p.ReadsDefined := by
  have hd := h.lawful
  have hroot := (Lowering.program_eq_ok hp).1
  have hcov := walk_covers hd.wellFormed hroot
  have hlen : values.length = (d.varNames root).length :=
    hv.trans (length_varNames hd hroot).symm
  obtain ⟨hvalue, hresults⟩ := evaluateAt_eq hd hroot hlen
  refine ⟨hcov.nodup_freeVars, fun v => hcov.mem_freeVars_iff, _, _, hvalue, hresults, ?_,
    fun hc => Lowering.call_scalar hd hc hp hlen, fun hc memory input output hinput => ?_,
    Lowering.readsDefined_of_program hd hp⟩
  · rw [List.length_map, length_resultNodes]
  · rw [List.length_map]
    exact Lowering.call_buffer hd hc hp hlen output hinput

/-- A variable, its opposite and infinity. -/
def opposite : Dag Double :=
  ((Command.lit ⟨0x7ff0000000000000⟩).run
    ((Command.build (.unary .neg (.var "x"))).run empty).2).2

def oppositeBundle : Dag Double :=
  ((Command.gradient ⟨1, [2], [0]⟩).run opposite).2

theorem reachable_oppositeBundle : oppositeBundle.Reachable := by
  have hneg : ((Command.build (.unary .neg (.var "x"))).run (empty : Dag Double)).1 =
      some (.node 1) := by cbv
  have hlit : ((Command.lit ⟨0x7ff0000000000000⟩).run
      ((Command.build (.unary .neg (.var "x"))).run (empty : Dag Double)).2).1 =
      some (.node 2) := by cbv
  have hgradient : ((Command.gradient ⟨1, [2], [0]⟩).run opposite).1 = some (.node 3) := by cbv
  exact ((Reachable.empty.next hneg).next hlit).next hgradient

/-- Minus one and infinity are stored to a buffer from whose start one was loaded. -/
theorem oppositeBundle_program_computes :
    ∃ p, oppositeBundle.program 3 ⟨.buffer, "kernel"⟩ = .ok p ∧ p.ReadsDefined ∧
      ∀ memory, memory 0 = Double.one → p.call [.pointer 0, .pointer 0] memory = some
        ⟨.void, writeAt memory 0 [⟨0xbff0000000000000⟩, ⟨0x7ff0000000000000⟩], [0, 1]⟩ := by
  have hsome : (oppositeBundle.program 3 ⟨.buffer, "kernel"⟩).toOption.isSome := by cbv
  cases hp : oppositeBundle.program 3 ⟨.buffer, "kernel"⟩ with
  | error fault => simp [hp, Except.toOption] at hsome
  | ok p =>
    have hv : [Double.one].length = (oppositeBundle.freeVars 3).length := by cbv
    obtain ⟨-, -, value, results, -, hresults, -, -, hbuffer, hreads⟩ :=
      reachable_oppositeBundle.program_computes hp hv
    have hxs : oppositeBundle.resultsAt 3 [Double.one] =
        .ok [⟨0xbff0000000000000⟩, ⟨0x7ff0000000000000⟩] := by cbv
    obtain rfl := Except.ok.inj (hresults.symm.trans hxs)
    refine ⟨p, rfl, hreads, fun memory hm => ?_⟩
    have hinput : ∀ i (hi : i < [Double.one].length), memory (0 + i) = [Double.one][i] := by
      simpa using hm
    exact hbuffer rfl memory 0 0 hinput

end Dag

end SharedExpr

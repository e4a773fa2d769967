import Mathlib
import SharedExpr.Proofs.Code.Body
import SharedExpr.Proofs.Code.Correctness
import SharedExpr.Proofs.Gradient.Signature

/-! The shape of a function: when there is one, what its body is, which registers it defines and
reads, and where it returns. -/
namespace SharedExpr

namespace Program

/-- The registers that a function defines: its parameters and the results of its instructions. -/
def definitions (p : Program) : List String :=
  p.params.map parameterName ++ p.instructions.filterMap Instruction.dest?

/-- There is one return, the last instruction, of the declared type. -/
def ReturnsLast (p : Program) : Prop :=
  ∃ done value, p.instructions = done ++ [.ret p.returns value] ∧
    ∀ i ∈ done, ∀ type value, i ≠ .ret type value

end Program

namespace Lowering

/-- The registers of a function of variables of these names, with these nodes as operators and so
many results. -/
def registers (convention : Convention) (names : List String) (nodes : List NodeId)
    (results : Nat) : List Register :=
  match convention with
  | .scalar =>
    names.map .value ++ (nodes.map .result ++ (List.range results).map .aggregate)
  | .buffer =>
    [.input, .output] ++ (names.flatMap (fun name => [.address name, .value name]) ++
      (nodes.map .result ++ (List.range results).map .slot))

theorem nodup_registers (convention : Convention) {names : List String} (hn : names.Nodup)
    {nodes : List NodeId} (hnodes : nodes.Nodup) (results : Nat) :
    (registers convention names nodes results).Nodup := by
  have hvalues : (names.map Register.value).Nodup := hn.map fun _ _ h => Register.value.inj h
  have hresults : (nodes.map Register.result).Nodup := hnodes.map fun _ _ h => Register.result.inj h
  cases convention with
  | scalar =>
    have haggregates : ((List.range results).map Register.aggregate).Nodup :=
      List.nodup_range.map fun _ _ h => Register.aggregate.inj h
    refine hvalues.append (hresults.append haggregates ?_) ?_
    · simp [List.disjoint_left]
    · simp [List.disjoint_left]
  | buffer =>
    have hslots : ((List.range results).map Register.slot).Nodup :=
      List.nodup_range.map fun _ _ h => Register.slot.inj h
    have hloads : (names.flatMap fun name => [Register.address name, .value name]).Nodup := by
      rw [List.nodup_flatMap]
      refine ⟨by simp, hn.imp fun {a b} hab => ?_⟩
      simp [Function.onFun, List.disjoint_left, hab]
    refine List.Nodup.append (by simp) (hloads.append (hresults.append hslots ?_) ?_) ?_
    · simp [List.disjoint_left]
    · rintro r hr
      obtain ⟨name, -, hr⟩ := List.mem_flatMap.1 hr
      rcases (by simpa using hr : r = .address name ∨ r = .value name) with rfl | rfl <;> simp
    · simp [List.disjoint_left]

theorem map_parameterName_params (convention : Convention) (names : List String) :
    (params convention names).map parameterName =
      match convention with
      | .scalar => names.map fun name => (Register.value name).text
      | .buffer => [Register.input.text, Register.output.text] := by
  cases convention with
  | scalar =>
    rw [params, List.map_map]
    exact List.map_congr_left fun name _ =>
      parameterName_append (show ' ' ∉ "double".toList by decide) _
  | buffer =>
    have hentry := fun text =>
      parameterName_append (show ' ' ∉ "ptr".toList by decide) text
    exact congrArg₂ (fun a b => [a, b]) (hentry _) (hentry _)

theorem dests_prologue (convention : Convention) (names : List String) :
    (prologue convention names).filterMap Instruction.dest? =
      match convention with
      | .scalar => []
      | .buffer => names.flatMap fun name =>
        [(Register.address name).text, (Register.value name).text] := by
  cases convention with
  | scalar => rfl
  | buffer =>
    rw [prologue, List.filterMap_flatMap]
    conv_rhs => rw [← List.zipIdx_map_fst 0 names, List.flatMap_map]
    rfl

/-- What a function ends with: a result for each register of a slot or an aggregate, and the return
of its type. -/
structure Exits (register : Nat → Register) (n : Nat) (returns : ReturnType)
    (instructions : List Instruction) : Prop where
  dests : instructions.filterMap Instruction.dest? =
    (List.range n).map fun i => (register i).text
  last : ∃ done value, instructions = done ++ [.ret returns value] ∧
    ∀ i ∈ done, ∀ type value, i ≠ .ret type value

theorem exits_aggregate (width : Nat) (values : List String) :
    Exits .aggregate values.length (.aggregate width)
      (aggregate width values.zipIdx none) := by
  have hfrom : ∀ k last,
      (aggregate width (values.zipIdx k) last).filterMap Instruction.dest? =
        (List.range' k values.length).map (fun i => (Register.aggregate i).text) ∧
      ∃ done value, aggregate width (values.zipIdx k) last =
        done ++ [.ret (.aggregate width) value] ∧
        ∀ i ∈ done, ∀ type value, i ≠ .ret type value := by
    induction values with
    | nil => exact fun _ last => ⟨rfl, [], last, rfl, by simp⟩
    | cons value values ih =>
      intro k last
      obtain ⟨hdests, done, v, hdone, hret⟩ := ih (k + 1) (some (Register.aggregate k).text)
      rw [List.zipIdx_cons, aggregate]
      refine ⟨?_, _ :: done, v, congrArg _ hdone, List.forall_mem_cons.2 ⟨by simp, hret⟩⟩
      rw [List.length_cons, List.range'_succ, List.map_cons, ← hdests]
      rfl
  obtain ⟨hdests, hlast⟩ := hfrom 0 none
  exact ⟨by rw [hdests, List.range_eq_range'], hlast⟩

theorem exits_stores (values : List String) :
    Exits .slot values.length .void
      ((values.zipIdx.flatMap fun entry =>
        [.elementPtr (Register.slot entry.2).text Register.output.text entry.2,
          .store entry.1 (Register.slot entry.2).text]) ++ [.ret .void none]) := by
  refine ⟨?_, _, none, rfl, fun i hi type value he => ?_⟩
  · rw [List.filterMap_append, List.filterMap_flatMap, List.range_eq_range',
      ← List.zipIdx_map_snd 0 values, List.map_map, List.map_eq_flatMap]
    exact List.append_nil _
  · obtain ⟨⟨v, k⟩, -, hm⟩ := List.mem_flatMap.1 hi
    subst he
    simp at hm

def resultRegister : Convention → Nat → Register
  | .scalar => .aggregate
  | .buffer => .slot

theorem exits_epilogue (convention : Convention) (values : List String) (isGradient : Bool) :
    ∃ n, Exits (resultRegister convention) n (epilogue convention values isGradient).1
      (epilogue convention values isGradient).2 := by
  cases convention with
  | buffer => exact ⟨_, exits_stores values⟩
  | scalar =>
    cases isGradient with
    | true => exact ⟨_, exits_aggregate values.length values⟩
    | false => exact ⟨0, rfl, [], values.head?, rfl, by simp⟩

theorem prologue_ne_ret {convention : Convention} {names : List String} {i : Instruction}
    (hi : i ∈ prologue convention names) (type : ReturnType) (value : Option String) :
    i ≠ .ret type value := by
  cases convention with
  | scalar => cases hi
  | buffer =>
    obtain ⟨⟨name, k⟩, -, hm⟩ := List.mem_flatMap.1 hi
    rintro rfl
    simp at hm

end Lowering

variable {α : Type}

def Label.isOperator : Label α → Bool
  | .unary _ | .binary _ => true
  | _ => false

variable [Scalar α] [ReadableText α] {d : Dag α} {root : NodeId}

namespace Dag

/-- The instruction of an operator defines the register of its result and reads the values of its
operands in order. -/
theorem instruction?_spec {id : NodeId} {i : Instruction}
    (hi : d.instruction? id = some i) :
    i.dest? = some (Register.result id).text ∧ i.reads = (d.operands id).map d.valueText ∧
      ∀ type value, i ≠ .ret type value := by
  rw [instruction?] at hi
  split at hi
  · next op x hn =>
    obtain rfl := Option.some.inj hi
    rw [operands_of_node? hn]
    cases op <;> exact ⟨rfl, rfl, by simp [Unary.instruction]⟩
  · next op x y hn =>
    obtain rfl := Option.some.inj hi
    rw [operands_of_node? hn]
    cases op <;> exact ⟨rfl, rfl, by simp [Binary.instruction]⟩
  · cases hi

/-- On the values of its operands, the instruction of an operator does what the operator does. -/
theorem execute_instruction? {id : NodeId} {i : Instruction} (hi : d.instruction? id = some i)
    {label : Label α} (hl : d.label? id = some label) {m : Machine α} {values : List α}
    (hv : m.Reads i.reads values) (ρ : String → α) :
    m.execute i =
      some (m.define (Register.result id).text (.number (label.denote ρ values))) := by
  rw [(instruction?_spec hi).2.1] at hv
  rw [instruction?] at hi
  split at hi
  · next op x hn =>
    obtain rfl := Option.some.inj hi
    obtain rfl := Option.some.inj ((label?_of_node? hn).symm.trans hl)
    rw [operands_of_node? hn] at hv
    cases hv with
    | cons hx hnil =>
      cases hnil
      exact Machine.execute_unary hx
  · next op x y hn =>
    obtain rfl := Option.some.inj hi
    obtain rfl := Option.some.inj ((label?_of_node? hn).symm.trans hl)
    rw [operands_of_node? hn] at hv
    cases hv with
    | cons hx hv =>
      cases hv with
      | cons hy hnil =>
        cases hnil
        exact Machine.execute_binary hx hy
  · cases hi

theorem isSome_instruction?_iff (h : d.Lawful) {id : NodeId} :
    (d.instruction? id).isSome ↔ (d.label? id).any Label.isOperator := by
  cases hn : d.node? id with
  | none =>
    have hl : d.label? id = none := Option.map_eq_none_iff.1 hn
    simp [instruction?, hn, hl]
  | some node =>
    rw [instruction?, hn, label?_of_node? hn]
    cases h.admits hn <;> simp [Label.isOperator]

def operators (d : Dag α) (nodes : List NodeId) : List NodeId :=
  nodes.filter fun id => (d.instruction? id).isSome

theorem dests_instructions (nodes : List NodeId) :
    (nodes.filterMap d.instruction?).filterMap Instruction.dest? =
      (d.operators nodes).map fun id => (Register.result id).text := by
  induction nodes with
  | nil => rfl
  | cons id nodes ih =>
    rw [operators] at ih ⊢
    cases hi : d.instruction? id with
    | none => rw [List.filterMap_cons_none hi, ih, List.filter_cons_of_neg (by simp [hi])]
    | some i =>
      rw [List.filterMap_cons_some hi, List.filterMap_cons_some (instruction?_spec hi).1, ih,
        List.filter_cons_of_pos (by simp [hi]), List.map_cons]

end Dag

namespace Lowering

variable {options : CodeOptions} {p : Program}

/-- A function defines the registers of its variables, its operators and its results. -/
theorem definitions_eq (h : d.Lawful) (hp : d.program root options = .ok p) :
    ∃ n, p.definitions = (registers options.convention (d.varNames root)
      (d.operators (d.walk root).order.toList) n).map Register.text := by
  have hbody := body_eq h hp
  obtain ⟨-, ts, s, -, rfl⟩ := program_eq_ok hp
  obtain ⟨n, hexit⟩ := exits_epilogue options.convention ts (d.bundle? root).isSome
  refine ⟨n, ?_⟩
  rw [Program.definitions, Program.instructions, List.filterMap_append, List.filterMap_append,
    hbody, Dag.dests_instructions]
  simp only [complete, map_parameterName_params, dests_prologue, hexit.dests]
  cases options.convention with
  | scalar => simp [registers, resultRegister, Function.comp_def]
  | buffer => simp [registers, resultRegister, Function.comp_def, List.map_flatMap]

theorem nodup_definitions (h : d.Lawful) (hp : d.program root options = .ok p) :
    p.definitions.Nodup := by
  have hroot := (program_eq_ok hp).1
  obtain ⟨n, hn⟩ := definitions_eq h hp
  have hnodes : (d.operators (d.walk root).order.toList).Nodup :=
    (Dag.walk_covers h.wellFormed hroot).nodup.filter _
  rw [hn]
  exact (nodup_registers options.convention (Dag.nodup_varNames h hroot) hnodes n).map
    fun _ _ => Register.text_injective

theorem returnsLast_of_program (h : d.Lawful) (hp : d.program root options = .ok p) :
    p.ReturnsLast := by
  obtain ⟨-, ts, s, -, hcomplete⟩ := program_eq_ok hp
  obtain ⟨n, hexit⟩ := exits_epilogue options.convention ts (d.bundle? root).isSome
  obtain ⟨done, value, hdone, hret⟩ := hexit.last
  have hepilogue : p.epilogue = done ++ [.ret p.returns value] := by rw [hcomplete]; exact hdone
  refine ⟨p.prologue ++ p.body ++ done, value, ?_, fun i hi => ?_⟩
  · rw [Program.instructions, hepilogue, List.append_assoc _ done]
  · rcases List.mem_append.1 hi with hi | hi
    · rcases List.mem_append.1 hi with hi | hi
      · rw [hcomplete] at hi
        exact prologue_ne_ret hi
      · rw [body_eq h hp] at hi
        obtain ⟨id, -, hi⟩ := List.mem_filterMap.1 hi
        exact (Dag.instruction?_spec hi).2.2
    · exact hret i hi

end Lowering

namespace Dag

/-- There is a function for a node unless it is no node of the graph or there is a gradient under
it, itself apart; a failure is a misuse. Its body has the instructions of the operators under the
node, each once, in the order of the walk. Each reads the values of its operands in order and leaves
the value of its operator on them in the register of its result, whatever the machine. No register
is defined twice, or read before it is defined, and the one return is the last instruction, of the
declared type. -/
theorem Reachable.program_shape (h : d.Reachable) (root : NodeId) (options : CodeOptions) :
    ((∃ fault, d.program root options = .error fault) ↔ ¬ root < d.count ∨
      ∃ id, d.Reaches root id ∧ id ≠ root ∧ (d.label? id).any Label.isGradient) ∧
    (∀ fault, d.program root options = .error fault → ∃ cause, fault = .misuse cause) ∧
    (∀ id, (d.instruction? id).isSome ↔ (d.label? id).any Label.isOperator) ∧
    (∀ id i, d.instruction? id = some i →
      i.dest? = some (Register.result id).text ∧ i.reads = (d.operands id).map d.valueText ∧
      ∃ label, d.label? id = some label ∧
        ∀ (ρ : String → α) (m : Machine α) (values : List α), m.Reads i.reads values →
          m.execute i =
            some (m.define (Register.result id).text (.number (label.denote ρ values)))) ∧
    ∀ p, d.program root options = .ok p →
      p.body = (d.walk root).order.toList.filterMap d.instruction? ∧
      (d.walk root).order.toList.Nodup ∧
      (∀ id, id ∈ (d.walk root).order.toList ↔ d.Reaches root id) ∧
      p.definitions.Nodup ∧ p.ReadsDefined ∧ p.ReturnsLast := by
  have hd := h.lawful
  refine ⟨?_, fun fault => Lowering.program_eq_error, fun id => isSome_instruction?_iff hd,
    fun id i hi => ?_, fun p hp => ?_⟩
  · have hexists : (∃ p, d.program root options = .ok p) ↔ _ := Lowering.exists_program_iff hd
    cases hp : d.program root options with
    | ok p =>
      obtain ⟨hroot, hg⟩ := hexists.1 ⟨p, hp⟩
      refine iff_of_false (by simp) ?_
      rintro (hlt | ⟨id, hr, hne, hid⟩)
      · exact hlt hroot
      · rw [hg id hr hne] at hid
        cases hid
    | error fault =>
      refine iff_of_true ⟨fault, rfl⟩ ?_
      by_contra hnone
      push Not at hnone
      obtain ⟨p, hp'⟩ := hexists.2 ⟨hnone.1, fun id hr hne => by simpa using hnone.2 id hr hne⟩
      cases hp.symm.trans hp'
  · obtain ⟨hdest, hreads, -⟩ := instruction?_spec hi
    have hop : (d.label? id).any Label.isOperator :=
      (isSome_instruction?_iff hd).1 (hi ▸ rfl)
    obtain ⟨label, hl, -⟩ := (Option.any_eq_true _ _).1 hop
    exact ⟨hdest, hreads, label, hl, fun ρ m values hv => execute_instruction? hi hl hv ρ⟩
  · have hcov := walk_covers hd.wellFormed (Lowering.program_eq_ok hp).1
    exact ⟨Lowering.body_eq hd hp, hcov.nodup, hcov.mem_order_iff,
      Lowering.nodup_definitions hd hp, Lowering.readsDefined_of_program hd hp,
      Lowering.returnsLast_of_program hd hp⟩

def nestedBundle : Dag Double :=
  ((Command.gradient ⟨5, [], []⟩).run ((Command.backward 2).run product).2).2

theorem reachable_nestedBundle : nestedBundle.Reachable := by
  have hbackward : ((Command.backward 2).run product).1 = some (.node 5) := by cbv
  have hgradient : ((Command.gradient ⟨5, [], []⟩).run ((Command.backward 2).run product).2).1 =
      some (.node 6) := by cbv
  exact (reachable_product.next hbackward).next hgradient

/-- There is a function for the gradient, whose one instruction multiplies, but none for the bundle
of it. -/
theorem nestedBundle_program_shape :
    (∃ p i, nestedBundle.program 5 {} = .ok p ∧ p.body = [i] ∧
      (∀ (m : Machine Double) (x y : Double),
        m.Reads [(Register.value "x").text, (Register.value "y").text] [x, y] →
          m.execute i =
            some (m.define (Register.result 2).text (.number (Scalar.binary .mul x y)))) ∧
      p.definitions.Nodup ∧ p.ReadsDefined ∧ p.ReturnsLast) ∧
    ∃ cause, nestedBundle.program 6 {} = .error (.misuse cause) := by
  constructor
  · have hsome : (nestedBundle.program 5 {}).toOption.isSome := by cbv
    have hop : (nestedBundle.instruction? 2).isSome := by cbv
    have hreads : (nestedBundle.operands 2).map nestedBundle.valueText =
        [(Register.value "x").text, (Register.value "y").text] := by cbv
    have hlabel : nestedBundle.label? 2 = some (.binary .mul) := by cbv
    cases hp : nestedBundle.program 5 {} with
    | error fault => simp [hp, Except.toOption] at hsome
    | ok p =>
      obtain ⟨-, -, -, hinstruction, hp'⟩ := reachable_nestedBundle.program_shape 5 {}
      obtain ⟨hbody, -, -, hdefinitions, hdefined, hreturns⟩ := hp' p hp
      obtain ⟨i, hi⟩ := Option.isSome_iff_exists.1 hop
      obtain ⟨-, hi', label, hl, hexecute⟩ := hinstruction 2 i hi
      obtain rfl := Option.some.inj (hl.symm.trans hlabel)
      have hothers : [0, 1, 5].map nestedBundle.instruction? = [none, none, none] := by cbv
      have horder : (nestedBundle.walk 5).order.toList = [0, 1, 2, 5] := by cbv
      refine ⟨p, i, rfl, ?_, fun m x y hxy => ?_, hdefinitions, hdefined, hreturns⟩
      · simp only [List.map_cons, List.map_nil, List.cons.injEq] at hothers
        rw [hbody, horder]
        simp [hothers, hi]
      · exact hexecute (fun _ => Double.zero) m [x, y] (hi'.trans hreads ▸ hxy)
  · obtain ⟨hfails, hmisuse, -⟩ := reachable_nestedBundle.program_shape 6 {}
    have hop : (5 : NodeId) ∈ nestedBundle.operands 6 := by
      rw [show nestedBundle.operands 6 = [5] by cbv]
      exact List.mem_singleton_self _
    obtain ⟨fault, hp⟩ := hfails.2 (Or.inr ⟨5, .single hop, by decide, by cbv⟩)
    obtain ⟨cause, rfl⟩ := hmisuse fault hp
    exact ⟨cause, hp⟩

end Dag

end SharedExpr

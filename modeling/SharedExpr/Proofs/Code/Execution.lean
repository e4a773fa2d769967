import SharedExpr.Proofs.Code.Machine
import SharedExpr.Proofs.Code.Register

/-! What the machine does with operands, with the instructions of operators and with sequences. -/
namespace SharedExpr

namespace Machine

variable {α : Type} {m m' : Machine α}

theorem registers_define_self (m : Machine α) (register : String) (value : Value α) :
    (m.define register value).registers register = some value :=
  if_pos rfl

theorem registers_define {text register : String} (h : text ≠ register) (value : Value α) :
    (m.define register value).registers text = m.registers text :=
  if_neg h

theorem pointer?_eq_some {register : String} {address : Nat}
    (h : m.pointer? register = some address) :
    m.registers register = some (.pointer address) := by
  rw [pointer?] at h
  split at h
  · next hr => rw [hr, Option.some.inj h]
  · cases h

/-- A text that stands for a register stands for one that is defined. -/
def Knows (m : Machine α) (text : String) : Prop :=
  text.toList.head? = some '%' → (m.registers text).isSome

theorem knows_of_pointer? {text : String} {address : Nat} (h : m.pointer? text = some address) :
    m.Knows text := by
  intro _
  rw [pointer?_eq_some h]
  rfl

theorem isSome_of_members? {width : Nat} {register : String} {members : List (Option α)}
    (h : m.members? width (some register) = some members) : (m.registers register).isSome := by
  rw [members?] at h
  cases hr : m.registers register with
  | none =>
    rw [hr] at h
    cases h
  | some value => rfl

variable [ReadableText α]

theorem read?_text (r : Register) : ReadableText.read? r.text = (none : Option α) :=
  ReadableText.read?_register _ r.head?_text

theorem constant_ne_text (value : α) (r : Register) : ScalarText.constant value ≠ r.text := by
  intro h
  have hr := ReadableText.read?_constant value
  rw [h, read?_text] at hr
  cases hr

theorem operand?_constant (m : Machine α) (value : α) :
    m.operand? (ScalarText.constant value) = some value := by
  rw [operand?, ReadableText.read?_constant]

theorem operand?_text {r : Register} {value : α} (h : m.registers r.text = some (.number value)) :
    m.operand? r.text = some value := by
  rw [operand?, read?_text, h]

theorem operand?_define {text register : String} (h : text ≠ register) (value : Value α) :
    (m.define register value).operand? text = m.operand? text := by
  simp only [operand?, define, if_neg h]

theorem isSome_of_operand? {text : String} (ht : text.toList.head? = some '%') {value : α}
    (h : m.operand? text = some value) : (m.registers text).isSome := by
  rw [operand?, ReadableText.read?_register text ht] at h
  cases hr : m.registers text with
  | none =>
    rw [hr] at h
    cases h
  | some value => rfl

theorem knows_of_operand? {text : String} {value : α} (h : m.operand? text = some value) :
    m.Knows text :=
  fun ht => isSome_of_operand? ht h

theorem exists_of_mapM {texts : List String} {values : List α}
    (h : texts.mapM m.operand? = some values) {text : String} (ht : text ∈ texts) :
    ∃ value, m.operand? text = some value := by
  induction texts generalizing values with
  | nil => cases ht
  | cons first texts ih =>
    simp only [List.mapM_cons, Option.bind_eq_bind, Option.bind_eq_some_iff] at h
    obtain ⟨x, hx, xs, hxs, -⟩ := h
    rcases List.mem_cons.1 ht with rfl | ht
    · exact ⟨x, hx⟩
    · exact ih hxs ht

theorem isSome_of_answer? {type : ReturnType} {value : Option String} {answer : Answer α}
    (h : m.answer? type value = some answer) {text : String} (hr : text ∈ value)
    (ht : text.toList.head? = some '%') : (m.registers text).isSome := by
  obtain rfl : value = some text := hr
  cases type with
  | void => cases h
  | double =>
    obtain ⟨x, hx, -⟩ := Option.map_eq_some_iff.1 h
    exact isSome_of_operand? ht hx
  | aggregate width =>
    simp only [answer?, Option.bind_eq_bind, Option.bind_eq_some_iff] at h
    obtain ⟨members, hm, -⟩ := h
    exact isSome_of_members? hm

variable [Scalar α]

theorem execute_unary {op : Unary} {dest x : String} {a : α} (hx : m.operand? x = some a) :
    m.execute (op.instruction dest x) = some (m.define dest (.number (Scalar.unary op a))) := by
  cases op <;> simp [Unary.instruction, execute, Unary.name, intrinsic?, hx]

theorem execute_binary {op : Binary} {dest x y : String} {a b : α} (hx : m.operand? x = some a)
    (hy : m.operand? y = some b) :
    m.execute (op.instruction dest x y) =
      some (m.define dest (.number (Scalar.binary op a b))) := by
  cases op <;> simp [Binary.instruction, execute, arithmetic?, intrinsic?, hx, hy]

theorem execute_elementPtr {dest base : String} {address : Nat} (index : Nat)
    (h : m.registers base = some (.pointer address)) :
    m.execute (.elementPtr dest base index) =
      some (m.define dest (.pointer (address + index))) := by
  simp [execute, pointer?, h]

theorem execute_load {dest ptr : String} {address : Nat}
    (h : m.registers ptr = some (.pointer address)) :
    m.execute (.load dest ptr) = some (m.define dest (.number (m.memory address))) := by
  simp [execute, pointer?, h]

theorem execute_store {value ptr : String} {x : α} {address : Nat} (hx : m.operand? value = some x)
    (h : m.registers ptr = some (.pointer address)) :
    m.execute (.store value ptr) = some (m.store address x) := by
  simp [execute, pointer?, hx, h]

/-- Carries out instructions among which there is no return. -/
def executeAll (m : Machine α) (instructions : List Instruction) : Option (Machine α) :=
  instructions.foldlM execute m

theorem executeAll_append {a b : List Instruction} {m'' : Machine α} (ha : m.executeAll a = some m')
    (hb : m'.executeAll b = some m'') : m.executeAll (a ++ b) = some m'' := by
  rw [executeAll, List.foldlM_append]
  exact Option.bind_eq_some_iff.2 ⟨m', ha, hb⟩

theorem executeAll_cons {i : Instruction} {rest : List Instruction} (hi : m.execute i = some m') :
    m.executeAll (i :: rest) = m'.executeAll rest := by
  rw [executeAll, List.foldlM_cons, hi]
  rfl

theorem run_cons {returns : ReturnType} {i : Instruction} {rest : List Instruction}
    (hi : m.execute i = some m') : run returns (i :: rest) m = run returns rest m' := by
  cases i with
  | ret => cases hi
  | _ =>
    rw [run, hi, Option.bind_some]
    simp

theorem run_append {returns : ReturnType} {a b : List Instruction} (ha : m.executeAll a = some m') :
    run returns (a ++ b) m = run returns b m' := by
  induction a generalizing m with
  | nil =>
    obtain rfl : m = m' := Option.some.inj ha
    rfl
  | cons i a ih =>
    cases hi : m.execute i with
    | none =>
      rw [executeAll, List.foldlM_cons, hi] at ha
      cases ha
    | some m₁ =>
      rw [executeAll_cons hi] at ha
      rw [List.cons_append, run_cons hi, ih ha]

/-- An instruction reads registers that are defined, and defines one or else stores a number. -/
theorem execute_spec {i : Instruction} (hi : m.execute i = some m') :
    (∀ text ∈ i.reads, m.Knows text) ∧
      ((∃ dest value, i.dest? = some dest ∧ m' = m.define dest value) ∨
        ∃ address value, m' = m.store address value) := by
  cases i with
  | arith dest mnemonic lhs rhs =>
    simp only [execute, Option.bind_eq_bind, Option.bind_eq_some_iff] at hi
    obtain ⟨op, -, x, hx, y, hy, hi⟩ := hi
    refine ⟨fun text hr => ?_, Or.inl ⟨dest, _, rfl, (Option.some.inj hi).symm⟩⟩
    rcases (by simpa [Instruction.reads] using hr) with rfl | rfl
    · exact knows_of_operand? hx
    · exact knows_of_operand? hy
  | neg dest operand =>
    simp only [execute, Option.bind_eq_bind, Option.bind_eq_some_iff] at hi
    obtain ⟨x, hx, hi⟩ := hi
    refine ⟨fun text hr => ?_, Or.inl ⟨dest, _, rfl, (Option.some.inj hi).symm⟩⟩
    exact List.mem_singleton.1 hr ▸ knows_of_operand? hx
  | call dest intrinsic args =>
    simp only [execute, Option.bind_eq_bind, Option.bind_eq_some_iff] at hi
    obtain ⟨xs, hxs, x, -, hi⟩ := hi
    refine ⟨fun text hr => ?_, Or.inl ⟨dest, _, rfl, (Option.some.inj hi).symm⟩⟩
    obtain ⟨y, hy⟩ := exists_of_mapM hxs hr
    exact knows_of_operand? hy
  | elementPtr dest base index =>
    simp only [execute, Option.bind_eq_bind, Option.bind_eq_some_iff] at hi
    obtain ⟨a, ha, hi⟩ := hi
    refine ⟨fun text hr => ?_, Or.inl ⟨dest, _, rfl, (Option.some.inj hi).symm⟩⟩
    exact List.mem_singleton.1 hr ▸ knows_of_pointer? ha
  | load dest ptr =>
    simp only [execute, Option.bind_eq_bind, Option.bind_eq_some_iff] at hi
    obtain ⟨a, ha, hi⟩ := hi
    refine ⟨fun text hr => ?_, Or.inl ⟨dest, _, rfl, (Option.some.inj hi).symm⟩⟩
    exact List.mem_singleton.1 hr ▸ knows_of_pointer? ha
  | store value ptr =>
    simp only [execute, Option.bind_eq_bind, Option.bind_eq_some_iff] at hi
    obtain ⟨x, hx, a, ha, hi⟩ := hi
    refine ⟨fun text hr => ?_, Or.inr ⟨a, x, (Option.some.inj hi).symm⟩⟩
    rcases (by simpa [Instruction.reads] using hr) with rfl | rfl
    · exact knows_of_operand? hx
    · exact knows_of_pointer? ha
  | insertValue dest width aggregate value index =>
    simp only [execute, Option.bind_eq_bind, Option.bind_eq_some_iff] at hi
    obtain ⟨members, hm, x, hx, hi⟩ := hi
    refine ⟨fun text hr => ?_, ?_⟩
    · rcases List.mem_append.1 hr with hr | hr
      · obtain rfl := Option.mem_toList.1 hr
        exact fun _ => isSome_of_members? hm
      · exact List.mem_singleton.1 hr ▸ knows_of_operand? hx
    · split at hi
      · exact Or.inl ⟨dest, _, rfl, (Option.some.inj hi).symm⟩
      · cases hi
  | ret => cases hi

theorem isSome_after {i : Instruction} (hi : m.execute i = some m') {text : String}
    (h : (m'.registers text).isSome) : (m.registers text).isSome ∨ i.dest? = some text := by
  rcases (execute_spec hi).2 with ⟨dest, value, hdest, rfl⟩ | ⟨address, value, rfl⟩
  · by_cases hd : text = dest
    · exact Or.inr (hd ▸ hdest)
    · rw [registers_define hd] at h
      exact Or.inl h
  · exact Or.inl h

theorem isSome_of_run {returns : ReturnType} {instructions : List Instruction}
    {result : Completion α} (h : run returns instructions m = some result)
    {done : List Instruction} {i : Instruction} {rest : List Instruction}
    (hsplit : instructions = done ++ i :: rest) {text : String} (hr : text ∈ i.reads)
    (ht : text.toList.head? = some '%') :
    (m.registers text).isSome ∨ ∃ j ∈ done, j.dest? = some text := by
  induction done generalizing m instructions with
  | nil =>
    subst hsplit
    cases hi : m.execute i with
    | some m' => exact Or.inl ((execute_spec hi).1 text hr ht)
    | none =>
      refine Or.inl ?_
      cases i with
      | ret type value =>
        cases rest with
        | nil =>
          rw [List.nil_append, run] at h
          split at h
          · obtain ⟨answer, ha, -⟩ := Option.map_eq_some_iff.1 h
            exact isSome_of_answer? ha (Option.mem_toList.1 hr) ht
          · cases h
        | cons => cases h
      | _ =>
        rw [List.nil_append, run, hi] at h
        · cases h
        · simp
  | cons j done ih =>
    subst hsplit
    cases hj : m.execute j with
    | some m' =>
      rw [List.cons_append, run_cons hj] at h
      rcases ih h rfl with hs | ⟨k, hk, hd⟩
      · rcases isSome_after hj hs with hs | hd
        · exact Or.inl hs
        · exact Or.inr ⟨j, List.mem_cons_self, hd⟩
      · exact Or.inr ⟨k, List.mem_cons_of_mem j hk, hd⟩
    | none =>
      rw [List.cons_append, run, hj] at h
      · cases h
      · rintro type value rfl hnil
        simp at hnil

end Machine

theorem parameterName_append {keyword : String} (hk : ' ' ∉ keyword.toList) (text : String) :
    parameterName (keyword ++ " " ++ text) = text := by
  have hall : ∀ c ∈ keyword.toList, (decide (c ≠ ' ')) = true := fun c hc => by
    simpa using fun he : c = ' ' => hk (he ▸ hc)
  have hdrop : (keyword ++ " " ++ text).toList.dropWhile (· ≠ ' ') = ' ' :: text.toList := by
    rw [String.toList_append, String.toList_append, List.append_assoc,
      List.dropWhile_append_of_pos hall]
    simp
  rw [parameterName, hdrop, List.drop_one, List.tail_cons, String.ofList_toList]

/-- The registers of a call are those named in the parameter list. -/
theorem exists_parameter {α : Type} {entries : List String} {values : List (Value α)}
    {registers : String → Option (Value α)} (h : parameters? entries values = some registers)
    {text : String} (ht : (registers text).isSome) :
    ∃ value ∈ values, value.keyword ++ " " ++ text ∈ entries := by
  induction entries generalizing values registers with
  | nil =>
    cases values with
    | nil =>
      obtain rfl := Option.some.inj h
      cases ht
    | cons => cases h
  | cons entry entries ih =>
    cases values with
    | nil => cases h
    | cons value values =>
      simp only [parameters?, Option.bind_eq_bind, Option.bind_eq_some_iff] at h
      obtain ⟨tail, htail, h⟩ := h
      split at h
      · next hstart =>
        obtain rfl := Option.some.inj h
        dsimp only at ht
        split at ht
        · next hname =>
          refine ⟨value, List.mem_cons_self, ?_⟩
          have hentry : value.keyword ++ " " ++ text = entry := by
            rw [hname, ← String.toList_inj, String.toList_append, String.toList_ofList]
            have hsplit := List.take_append_drop (value.keyword ++ " ").toList.length entry.toList
            rwa [hstart] at hsplit
          exact hentry ▸ List.mem_cons_self
        · obtain ⟨argument, hm, hk⟩ := ih htail ht
          exact ⟨argument, List.mem_cons_of_mem value hm, List.mem_cons_of_mem entry hk⟩
      · cases h

/-- A function that runs to its end reads no register before it is defined. -/
theorem Program.readsDefined_of_call {α : Type} [Scalar α] [ReadableText α] {p : Program}
    {args : List (Value α)} {memory : Nat → α} {result : Completion α}
    (h : p.call args memory = some result)
    (hkeyword : ∀ value ∈ args, ' ' ∉ value.keyword.toList) : p.ReadsDefined := by
  obtain ⟨registers, hparams, hrun⟩ := Option.bind_eq_some_iff.1 h
  intro done i rest hsplit text hr ht
  rcases Machine.isSome_of_run hrun hsplit hr ht with hs | ⟨j, hj, hdest⟩
  · obtain ⟨value, hvalue, hentry⟩ := exists_parameter hparams hs
    refine List.mem_append_left _ (List.mem_map.2 ⟨_, hentry, ?_⟩)
    exact parameterName_append (hkeyword value hvalue) text
  · exact List.mem_append_right _ (List.mem_filterMap.2 ⟨j, hj, hdest⟩)

end SharedExpr

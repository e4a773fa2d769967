import Mathlib.Data.List.Forall2
import SharedExpr.Code.Lowering
import SharedExpr.Proofs.Code.Execution

/-! How functions take the values of their variables and hand back their results. -/
namespace SharedExpr

/-- The memory with values written one after the other from an address on. -/
def writeAt {α : Type} (memory : Nat → α) (base : Nat) (xs : List α) : Nat → α := fun a =>
  if base ≤ a then (xs[a - base]?).getD (memory a) else memory a

section Memory

variable {α : Type} (memory : Nat → α) (base : Nat)

theorem writeAt_nil : writeAt memory base [] = memory := by
  funext a
  simp [writeAt]

theorem writeAt_cons (x : α) (xs : List α) :
    writeAt memory base (x :: xs) =
      writeAt (fun a => if a = base then x else memory a) (base + 1) xs := by
  funext a
  simp only [writeAt]
  rcases Nat.lt_trichotomy a base with h | rfl | h
  · rw [if_neg (by omega), if_neg (by omega), if_neg (by omega)]
  · rw [if_pos (Nat.le_refl a), if_neg (by omega), Nat.sub_self, if_pos rfl]
    rfl
  · have hs : a - base = a - (base + 1) + 1 := by omega
    rw [if_pos (by omega), if_pos (by omega), if_neg (by omega), hs, List.getElem?_cons_succ]

theorem writeAt_slot {xs : List α} {i : Nat} (h : i < xs.length) :
    writeAt memory base xs (base + i) = xs[i] := by
  simp [writeAt, h]

end Memory

variable {α : Type}

def Binds (registers : String → Option (Value α)) : List String → List α → Prop :=
  List.Forall₂ fun name x => registers (Register.value name).text = some (.number x)

theorem Binds.congr {registers registers' : String → Option (Value α)} {names : List String}
    {values : List α} (h : Binds registers names values)
    (hr : ∀ name ∈ names,
      registers' (Register.value name).text = registers (Register.value name).text) :
    Binds registers' names values :=
  ((List.forall₂_and_left names values).2 ⟨hr, h⟩).imp fun _ _ hx => hx.1.trans hx.2

section Entry

theorem parameters?_cons (value : Value α) (values : List (Value α)) (name : String)
    (entries : List String) :
    parameters? ((value.keyword ++ " " ++ name) :: entries) (value :: values) =
      (parameters? entries values).map fun registers r =>
        if r = name then some value else registers r := by
  have htake : (value.keyword ++ " " ++ name).toList.take (value.keyword ++ " ").toList.length =
      (value.keyword ++ " ").toList := by
    rw [String.toList_append (t := name), List.take_left]
  have hdrop : String.ofList
      ((value.keyword ++ " " ++ name).toList.drop (value.keyword ++ " ").toList.length) = name := by
    rw [String.toList_append (t := name), List.drop_left, String.ofList_toList]
  rw [parameters?]
  cases parameters? entries values with
  | none => rfl
  | some registers =>
    simp only [Option.bind_eq_bind, Option.bind_some, htake, hdrop, if_true, Option.map_some]
    rfl

theorem parameters?_scalar {names : List String} (hn : names.Nodup) {values : List α}
    (hl : values.length = names.length) :
    ∃ registers, parameters? (Lowering.params .scalar names) (values.map .number) = some registers ∧
      Binds registers names values := by
  induction names generalizing values with
  | nil =>
    obtain rfl := List.eq_nil_of_length_eq_zero hl
    exact ⟨_, rfl, .nil⟩
  | cons name names ih =>
    obtain ⟨x, xs, rfl⟩ := List.exists_cons_of_length_eq_add_one hl
    obtain ⟨hnew, hn⟩ := List.nodup_cons.1 hn
    obtain ⟨registers, hr, hb⟩ := ih hn (Nat.succ.inj hl)
    let registers' : String → Option (Value α) := fun r =>
      if r = (Register.value name).text then some (.number x) else registers r
    have hb' : Binds registers' names xs := by
      refine hb.congr fun other ho => if_neg fun ht => ?_
      obtain rfl := Register.value.inj (Register.text_injective ht)
      exact hnew ho
    have hx : registers' (Register.value name).text = some (.number x) := if_pos rfl
    refine ⟨registers', ?_, .cons hx hb'⟩
    · have hc := parameters?_cons (.number x) (xs.map .number) (Register.value name).text
        (Lowering.params .scalar names)
      rw [hr] at hc
      exact hc

theorem parameters?_buffer (names : List String) (input output : Nat) :
    ∃ registers : String → Option (Value α),
      parameters? (Lowering.params .buffer names) [.pointer input, .pointer output] =
        some registers ∧
      registers Register.input.text = some (.pointer input) ∧
      registers Register.output.text = some (.pointer output) := by
  have ho := parameters?_cons (.pointer output : Value α) [] Register.output.text []
  have hi := parameters?_cons (.pointer input : Value α) [.pointer output] Register.input.text
    ["ptr " ++ Register.output.text]
  have hne : Register.output.text ≠ Register.input.text :=
    fun h => Register.noConfusion (Register.text_injective h)
  refine ⟨_, hi.trans (congrArg (Option.map _) ho), if_pos rfl, ?_⟩
  simp [hne]

variable [Scalar α] [ReadableText α]

/-- The loads of the variables fill their registers from the input buffer. -/
theorem executeAll_loads {names : List String} (hn : names.Nodup) {values : List α}
    (hl : values.length = names.length) {m : Machine α} {input start : Nat}
    (hinput : m.registers Register.input.text = some (.pointer input))
    (hmemory : ∀ i (hi : i < values.length), m.memory (input + (start + i)) = values[i]) :
    ∃ m', m.executeAll ((names.zipIdx start).flatMap fun (name, i) =>
        [.elementPtr (Register.address name).text Register.input.text i,
          .load (Register.value name).text (Register.address name).text]) = some m' ∧
      m'.memory = m.memory ∧ m'.stores = m.stores ∧ Binds m'.registers names values ∧
      ∀ r : Register, (∀ name ∈ names, r ≠ .value name ∧ r ≠ .address name) →
        m'.registers r.text = m.registers r.text := by
  induction names generalizing values m start with
  | nil =>
    obtain rfl := List.eq_nil_of_length_eq_zero hl
    exact ⟨m, rfl, rfl, rfl, .nil, fun _ _ => rfl⟩
  | cons name names ih =>
    obtain ⟨x, xs, rfl⟩ := List.exists_cons_of_length_eq_add_one hl
    obtain ⟨hnew, hn⟩ := List.nodup_cons.1 hn
    have hx : m.memory (input + start) = x := hmemory 0 (Nat.succ_pos _)
    let m₁ := m.define (Register.address name).text (.pointer (input + start))
    let m₂ := m₁.define (Register.value name).text (.number x)
    have h₁ : m.execute (.elementPtr (Register.address name).text Register.input.text start) =
        some m₁ :=
      Machine.execute_elementPtr start hinput
    have h₂ : m₁.execute (.load (Register.value name).text (Register.address name).text) =
        some m₂ := by
      rw [Machine.execute_load (Machine.registers_define_self _ _ _)]
      exact congrArg (fun y => some (m₁.define _ (.number y))) hx
    have hframe : ∀ r : Register, r ≠ .value name → r ≠ .address name →
        m₂.registers r.text = m.registers r.text := by
      intro r hv ha
      rw [Machine.registers_define fun h => hv (Register.text_injective h),
        Machine.registers_define fun h => ha (Register.text_injective h)]
    have hmem : ∀ i (hi : i < xs.length), m₂.memory (input + (start + 1 + i)) = xs[i] := by
      intro i hi
      have hm := hmemory (i + 1) (Nat.succ_lt_succ hi)
      rwa [show start + (i + 1) = start + 1 + i by omega] at hm
    obtain ⟨m', hm', hmemory', hstores', hb, hr⟩ := ih hn (Nat.succ.inj hl)
      ((hframe .input nofun nofun).trans hinput) hmem
    refine ⟨m', ?_, hmemory', hstores', .cons ?_ hb, fun r hne => ?_⟩
    · rw [List.zipIdx_cons, List.flatMap_cons, List.cons_append, List.cons_append,
        List.nil_append, Machine.executeAll_cons h₁, Machine.executeAll_cons h₂]
      exact hm'
    · rw [hr (.value name) fun other ho => ⟨?_, nofun⟩]
      · exact Machine.registers_define_self _ _ _
      · rintro h
        exact hnew (Register.value.inj h ▸ ho)
    · obtain ⟨hv, ha⟩ := hne name List.mem_cons_self
      rw [hr r fun other ho => hne other (List.mem_cons_of_mem name ho), hframe r hv ha]

end Entry

section Exit

variable [ReadableText α]

def Machine.Reads (m : Machine α) : List String → List α → Prop :=
  List.Forall₂ fun t x => m.operand? t = some x

variable {m : Machine α} {ts : List String} {xs : List α}

theorem Machine.Reads.define {register : String} (h : m.Reads ts xs)
    (hne : ∀ t ∈ ts, t ≠ register) (value : Value α) : (m.define register value).Reads ts xs :=
  ((List.forall₂_and_left ts xs).2 ⟨hne, h⟩).imp fun _ _ ht =>
    (operand?_define ht.1 value).trans ht.2

variable [Scalar α]

/-- Results are stored one after the other, and nothing else is. -/
theorem executeAll_stores {output : Nat} (start : Nat) (hts : m.Reads ts xs)
    (hslot : ∀ t ∈ ts, ∀ i, t ≠ (Register.slot i).text)
    (houtput : m.registers Register.output.text = some (.pointer output)) :
    ∃ m', m.executeAll ((ts.zipIdx start).flatMap fun (value, i) =>
        [.elementPtr (Register.slot i).text Register.output.text i,
          .store value (Register.slot i).text]) = some m' ∧
      m'.memory = writeAt m.memory (output + start) xs ∧
      m'.stores = m.stores ++ List.range' (output + start) xs.length := by
  induction ts generalizing xs m start with
  | nil =>
    cases hts
    exact ⟨m, rfl, (writeAt_nil _ _).symm, (List.append_nil _).symm⟩
  | cons t ts ih =>
    cases hts with
    | @cons _ x _ xs hx hts =>
      have hrest : ∀ u ∈ ts, ∀ i, u ≠ (Register.slot i).text :=
        fun u hu => hslot u (List.mem_cons_of_mem t hu)
      let m₁ := m.define (Register.slot start).text (.pointer (output + start))
      let m₂ := m₁.store (output + start) x
      have h₁ : m.execute (.elementPtr (Register.slot start).text Register.output.text start) =
          some m₁ :=
        Machine.execute_elementPtr start houtput
      have hx₁ : m₁.operand? t = some x :=
        (Machine.operand?_define (hslot t List.mem_cons_self start) _).trans hx
      have h₂ : m₁.execute (.store t (Register.slot start).text) = some m₂ :=
        Machine.execute_store hx₁ (Machine.registers_define_self _ _ _)
      have hts₂ : m₂.Reads ts xs := Machine.Reads.define hts (fun u hu => hrest u hu start) _
      have hne : Register.output.text ≠ (Register.slot start).text :=
        fun h => Register.noConfusion (Register.text_injective h)
      have houtput₂ : m₂.registers Register.output.text = some (.pointer output) :=
        (Machine.registers_define hne _).trans houtput
      obtain ⟨m', hm', hmemory, hstores⟩ := ih (start + 1) hts₂ hrest houtput₂
      refine ⟨m', ?_, ?_, ?_⟩
      · rw [List.zipIdx_cons, List.flatMap_cons, List.cons_append, List.cons_append,
          List.nil_append, Machine.executeAll_cons h₁, Machine.executeAll_cons h₂]
        exact hm'
      · rw [hmemory, writeAt_cons]
        rfl
      · rw [hstores, List.length_cons, List.range'_succ, ← Nat.add_assoc]
        exact List.append_assoc m.stores [output + start] _

theorem run_buffer {output : Nat} (hts : m.Reads ts xs)
    (hslot : ∀ t ∈ ts, ∀ i, t ≠ (Register.slot i).text)
    (houtput : m.registers Register.output.text = some (.pointer output)) (isGradient : Bool) :
    Machine.run (Lowering.epilogue .buffer ts isGradient).1
        (Lowering.epilogue .buffer ts isGradient).2 m =
      some ⟨.void, writeAt m.memory output xs, m.stores ++ List.range' output xs.length⟩ := by
  obtain ⟨m', hm', hmemory, hstores⟩ := executeAll_stores 0 hts hslot houtput
  rw [Lowering.epilogue, Machine.run_append hm']
  simp [Machine.run, Machine.answer?, hmemory, hstores]

/-- Members are set one after the other, until all of them are. -/
theorem run_aggregate {width : Nat} {done : List α} {last : Option String}
    (hwidth : done.length + xs.length = width)
    (hlast : m.members? width last = some (done.map some ++ List.replicate xs.length none))
    (hsome : xs = [] → last.isSome) (hts : m.Reads ts xs)
    (hne : ∀ t ∈ ts, ∀ i, t ≠ (Register.aggregate i).text) :
    Machine.run (.aggregate width) (Lowering.aggregate width (ts.zipIdx done.length) last) m =
      some ⟨.aggregate (done ++ xs), m.memory, m.stores⟩ := by
  induction ts generalizing xs m done last with
  | nil =>
    cases hts
    obtain ⟨register, rfl⟩ := Option.isSome_iff_exists.1 (hsome rfl)
    have hall : (done.map some).mapM id = some done := by
      rw [List.mapM_map]
      exact (List.mapM_pure (m := Option) (f := id)).trans (congrArg some (List.map_id done))
    rw [List.length_nil, List.replicate_zero, List.append_nil] at hlast
    simp [Lowering.aggregate, Machine.run, Machine.answer?, hlast, hall]
  | cons t ts ih =>
    cases hts with
    | @cons _ x _ xs hx hts =>
      have hrest : ∀ u ∈ ts, ∀ i, u ≠ (Register.aggregate i).text :=
        fun u hu => hne u (List.mem_cons_of_mem t hu)
      let register := (Register.aggregate done.length).text
      let members := (done ++ [x]).map some ++ List.replicate xs.length none
      let m₁ := m.define register (.aggregate members)
      have hmembers : members.length = width := by
        rw [List.length_cons] at hwidth
        simp [members]
        omega
      have h₁ : m.execute (.insertValue register width last t done.length) = some m₁ := by
        have hlt : done.length < width := by
          rw [List.length_cons] at hwidth
          omega
        have hset : (done.map some ++ List.replicate (x :: xs).length none).set done.length
            (some x) = members := by
          simp [members, List.replicate_succ, List.set_append_right]
        simp only [Machine.execute, hlast, hx, if_pos hlt, Option.bind_eq_bind, Option.bind_some,
          hset]
        rfl
      have hlast₁ : m₁.members? width (some register) = some members := by
        rw [Machine.members?, Machine.registers_define_self]
        exact if_pos hmembers
      have hlen : (done ++ [x]).length = done.length + 1 := List.length_append
      have hrun := ih (by rw [hlen, ← hwidth, List.length_cons]; omega) hlast₁ (fun _ => rfl)
        (Machine.Reads.define hts (fun u hu => hrest u hu done.length) _) hrest
      rw [hlen, List.append_assoc] at hrun
      rw [List.zipIdx_cons, Lowering.aggregate, Machine.run_cons h₁]
      exact hrun

theorem run_number {t : String} {x : α} (hx : m.operand? t = some x) :
    Machine.run (Lowering.epilogue .scalar [t] false).1 (Lowering.epilogue .scalar [t] false).2 m =
      some ⟨.number x, m.memory, m.stores⟩ := by
  simp [Lowering.epilogue, Machine.run, Machine.answer?, hx]

theorem run_members (hts : m.Reads ts xs) (hxs : xs ≠ [])
    (hne : ∀ t ∈ ts, ∀ i, t ≠ (Register.aggregate i).text) :
    Machine.run (Lowering.epilogue .scalar ts true).1 (Lowering.epilogue .scalar ts true).2 m =
      some ⟨.aggregate xs, m.memory, m.stores⟩ := by
  have hl : ts.length = xs.length := List.Forall₂.length_eq hts
  have hlast : m.members? ts.length none =
      some (([] : List α).map some ++ List.replicate xs.length none) := by
    rw [hl]
    rfl
  have hwidth : ([] : List α).length + xs.length = ts.length := by simp [hl]
  exact run_aggregate hwidth hlast (fun h => absurd h hxs) hts hne

end Exit

end SharedExpr

import SharedExpr.Proofs.Code.Execution
import SharedExpr.Proofs.Code.Known
import SharedExpr.Proofs.Dag.Walk

/-! The instructions of a lowering compute the values of the nodes that are lowered. -/
namespace SharedExpr

variable {α : Type} [Scalar α] [ReadableText α]

def Dag.valueText (d : Dag α) (id : NodeId) : String :=
  match d.label? id with
  | some (.lit value) => ScalarText.constant value
  | some (.var name) => (Register.value name).text
  | _ => (Register.result id).text

theorem Dag.valueText_ne (d : Dag α) (id : NodeId) {r : Register} (hv : ∀ name, r ≠ .value name)
    (hr : r ≠ .result id) : d.valueText id ≠ r.text := by
  rw [valueText]
  split
  · exact Machine.constant_ne_text _ r
  · exact fun h => hv _ (Register.text_injective h).symm
  · exact fun h => hr (Register.text_injective h).symm

theorem Except.bind_eq_ok {ε β γ : Type} {x : Except ε β} {f : β → Except ε γ} {c : γ}
    (h : x >>= f = .ok c) : ∃ b, x = .ok b ∧ f b = .ok c := by
  cases x with
  | error e => cases h
  | ok b => exact ⟨b, rfl, h⟩

namespace Lowering

/-- The instructions so far lead to a machine that has the values of the nodes lowered under their
texts. Only registers of results have changed. -/
structure Simulated (d : Dag α) (ρ : String → α) (m₀ : Machine α) (s : Lowering) (m : Machine α) :
    Prop where
  executes : m₀.executeAll s.body.toList = some m
  text : ∀ (id : NodeId) (t : String), s.values[id]? = some t → t = d.valueText id
  value : ∀ (id : NodeId) (t : String), s.values[id]? = some t → m.operand? t = some (d.denote ρ id)
  memory : m.memory = m₀.memory
  stores : m.stores = m₀.stores
  registers : ∀ r : Register, (∀ id, r ≠ .result id) → m.registers r.text = m₀.registers r.text

variable {d : Dag α} {ρ : String → α} {m₀ m : Machine α} {s s' : Lowering}

namespace Simulated

theorem bind (h : Simulated d ρ m₀ s m) {id : NodeId} {t : String} (ht : t = d.valueText id)
    (hv : m.operand? t = some (d.denote ρ id)) : Simulated d ρ m₀ (s.bind id t) m where
  executes := h.executes
  text x u hu := by
    rw [values_bind] at hu
    split at hu
    · next hx => rw [← Option.some.inj hu, ← hx, ht]
    · exact h.text x u hu
  value x u hu := by
    rw [values_bind] at hu
    split at hu
    · next hx => rw [← Option.some.inj hu, ← hx, hv]
    · exact h.value x u hu
  memory := h.memory
  stores := h.stores
  registers := h.registers

/-- An instruction for a node defines the register of its result. -/
theorem result (h : Simulated d ρ m₀ s m) {id : NodeId} {i : Instruction}
    (ht : d.valueText id = (Register.result id).text)
    (hi : m.execute i = some (m.define (Register.result id).text (.number (d.denote ρ id)))) :
    Simulated d ρ m₀ (s.add id (Register.result id).text (some i))
      (m.define (Register.result id).text (.number (d.denote ρ id))) where
  executes := by
    have hs : m.executeAll [i] =
        some (m.define (Register.result id).text (.number (d.denote ρ id))) := by
      rw [Machine.executeAll_cons hi]
      rfl
    simpa [add] using Machine.executeAll_append h.executes hs
  text x t hx := by
    rw [values_add] at hx
    split at hx
    · next hid => rw [← Option.some.inj hx, ← hid, ht]
    · exact h.text x t hx
  value x t hx := by
    rw [values_add] at hx
    split at hx
    · next hid =>
      rw [← Option.some.inj hx, ← hid]
      exact Machine.operand?_text (Machine.registers_define_self _ _ _)
    · next hid =>
      have hne : t ≠ (Register.result id).text := by
        rw [h.text x t hx]
        exact d.valueText_ne x (by simp) (by simpa using hid)
      rw [Machine.operand?_define hne]
      exact h.value x t hx
  memory := h.memory
  stores := h.stores
  registers r hr := by
    rw [Machine.registers_define fun he => hr id (Register.text_injective he)]
    exact h.registers r hr

end Simulated

theorem lowerNode_simulated (hw : d.WellFormed) (h : Simulated d ρ m₀ s m) {id : NodeId}
    {t : String} {i : Option Instruction} (hn : lowerNode d s id = .ok (t, i)) :
    ∃ m', Simulated d ρ m₀ (s.add id t i) m' := by
  rw [lowerNode] at hn
  split at hn
  · next value _ hnode =>
    cases hn
    rw [add_none]
    refine ⟨m, h.bind (by rw [Dag.valueText, Dag.label?_of_node? hnode]) ?_⟩
    rw [Machine.operand?_constant, Dag.denote_eq hw ρ hnode]
    rfl
  · cases hn
  · next op x _ hnode =>
    obtain ⟨tx, hx, hn⟩ := Except.bind_eq_ok hn
    cases hn
    have ht : d.valueText id = (Register.result id).text := by
      rw [Dag.valueText, Dag.label?_of_node? hnode]
    have hi : m.execute (op.instruction (Register.result id).text tx) =
        some (m.define (Register.result id).text (.number (d.denote ρ id))) := by
      rw [Dag.denote_eq hw ρ hnode]
      exact Machine.execute_unary (h.value x tx (operand_eq_ok hx))
    exact ⟨_, h.result ht hi⟩
  · next op x y _ hnode =>
    obtain ⟨tx, hx, hn⟩ := Except.bind_eq_ok hn
    obtain ⟨ty, hy, hn⟩ := Except.bind_eq_ok hn
    cases hn
    have ht : d.valueText id = (Register.result id).text := by
      rw [Dag.valueText, Dag.label?_of_node? hnode]
    have hi : m.execute (op.instruction (Register.result id).text tx ty) =
        some (m.define (Register.result id).text (.number (d.denote ρ id))) := by
      rw [Dag.denote_eq hw ρ hnode]
      exact Machine.execute_binary (h.value x tx (operand_eq_ok hx))
        (h.value y ty (operand_eq_ok hy))
    exact ⟨_, h.result ht hi⟩
  · cases hn
  · cases hn

theorem lowerAll_simulated (hw : d.WellFormed) {nodes : List NodeId} (h : Simulated d ρ m₀ s m)
    (hn : lowerAll d nodes s = (.ok (), s')) : ∃ m', Simulated d ρ m₀ s' m' := by
  induction nodes generalizing s m with
  | nil =>
    cases hn
    exact ⟨m, h⟩
  | cons id nodes ih =>
    by_cases hk : s.Known id
    · exact ih h ((lowerAll_cons_of_known hk nodes).symm.trans hn)
    · obtain ⟨t, i, hl, hn⟩ := lowerAll_cons_eq_ok hk hn
      obtain ⟨m₁, h₁⟩ := lowerNode_simulated hw h hl
      exact ih h₁ hn

theorem lower_simulated (hw : d.WellFormed) (h : Simulated d ρ m₀ s m) {id : NodeId} {t : String}
    (hn : lower d id s = (.ok t, s')) : ∃ m', Simulated d ρ m₀ s' m' := by
  rcases (lower_eq_ok hn).2 with rfl | hl
  · exact ⟨m, h⟩
  · exact lowerAll_simulated hw h hl

theorem lowerList_simulated (hw : d.WellFormed) {ids : List NodeId} {ts : List String}
    (h : Simulated d ρ m₀ s m) (hn : lowerList d ids s = (.ok ts, s')) :
    ∃ m', Simulated d ρ m₀ s' m' := by
  induction ids generalizing s m ts with
  | nil =>
    cases hn
    exact ⟨m, h⟩
  | cons id ids ih =>
    obtain ⟨t, rest, s₁, hl, hr, rfl⟩ := lowerList_cons_eq_ok hn
    obtain ⟨m₁, h₁⟩ := lower_simulated hw h hl
    exact ih h₁ hr

end Lowering

end SharedExpr

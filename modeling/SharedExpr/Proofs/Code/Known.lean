import Mathlib.Data.List.Forall2
import SharedExpr.Code.Lowering

/-! What is lowered is known from then on. -/
namespace SharedExpr.Lowering

variable {α : Type} [Scalar α] [ScalarText α] {d : Dag α} {s s' : Lowering}

theorem operand_eq_ok {id : NodeId} {t : String} (h : s.operand id = .ok t) :
    s.values[id]? = some t := by
  rw [operand] at h
  split at h
  · next hv => rw [hv, Except.ok.inj h]
  · cases h

theorem values_bind (s : Lowering) (id : NodeId) (t : String) (x : NodeId) :
    (s.bind id t).values[x]? = if id = x then some t else s.values[x]? := by
  simp [bind, Std.HashMap.getElem?_insert]

theorem values_add (s : Lowering) (id : NodeId) (t : String) (i : Option Instruction) (x : NodeId) :
    (s.add id t i).values[x]? = if id = x then some t else s.values[x]? :=
  s.values_bind id t x

theorem add_none (s : Lowering) (id : NodeId) (t : String) : s.add id t none = s.bind id t := by
  simp [add, bind]

/-- What was lowered stays lowered. -/
def Keeps (s s' : Lowering) : Prop :=
  ∀ (id : NodeId) (t : String), s.values[id]? = some t → s'.values[id]? = some t

def Known (s : Lowering) (id : NodeId) : Prop :=
  (s.values[id]?).isSome

theorem Keeps.refl (s : Lowering) : s.Keeps s :=
  fun _ _ ht => ht

theorem Keeps.trans {s'' : Lowering} (h : s.Keeps s') (h' : s'.Keeps s'') : s.Keeps s'' :=
  fun id t ht => h' id t (h id t ht)

theorem Keeps.known (h : s.Keeps s') {id : NodeId} (hid : s.Known id) : s'.Known id := by
  obtain ⟨t, ht⟩ := Option.isSome_iff_exists.1 hid
  exact Option.isSome_of_eq_some (h id t ht)

theorem operand_of_known {id : NodeId} (h : s.Known id) : ∃ t, s.operand id = .ok t := by
  obtain ⟨t, ht⟩ := Option.isSome_iff_exists.1 h
  exact ⟨t, by rw [operand, ht]⟩

theorem known_add (s : Lowering) (id : NodeId) (t : String) (i : Option Instruction) :
    (s.add id t i).Known id := by
  simp [Known, values_add]

theorem keeps_add {id : NodeId} (h : ¬ s.Known id) (t : String) (i : Option Instruction) :
    s.Keeps (s.add id t i) := by
  intro x u hu
  rw [values_add, if_neg, hu]
  rintro rfl
  exact h (Option.isSome_of_eq_some hu)

theorem lowerAll_cons_of_known {id : NodeId} (hk : s.Known id) (nodes : List NodeId) :
    lowerAll d (id :: nodes) s = lowerAll d nodes s := by
  rw [lowerAll, if_pos (by simpa [Known] using hk)]

theorem lowerAll_cons_ok {id : NodeId} {t : String} {i : Option Instruction} (hk : ¬ s.Known id)
    (hn : lowerNode d s id = .ok (t, i)) (nodes : List NodeId) :
    lowerAll d (id :: nodes) s = lowerAll d nodes (s.add id t i) := by
  rw [lowerAll, if_neg (by simpa [Known] using hk), hn]

theorem lowerAll_cons_error {id : NodeId} {fault : Fault} (hk : ¬ s.Known id)
    (hn : lowerNode d s id = .error fault) (nodes : List NodeId) :
    lowerAll d (id :: nodes) s = (.error fault, s) := by
  rw [lowerAll, if_neg (by simpa [Known] using hk), hn]

/-- A node that is not known is lowered first if all nodes of a list are. -/
theorem lowerAll_cons_eq_ok {id : NodeId} {nodes : List NodeId} (hk : ¬ s.Known id)
    (h : lowerAll d (id :: nodes) s = (.ok (), s')) :
    ∃ t i, lowerNode d s id = .ok (t, i) ∧ lowerAll d nodes (s.add id t i) = (.ok (), s') := by
  cases hn : lowerNode d s id with
  | error fault =>
    rw [lowerAll_cons_error hk hn] at h
    cases h
  | ok lowered =>
    obtain ⟨t, i⟩ := lowered
    exact ⟨t, i, rfl, (lowerAll_cons_ok hk hn nodes).symm.trans h⟩

theorem lowerAll_keeps {nodes : List NodeId} (h : lowerAll d nodes s = (.ok (), s')) :
    s.Keeps s' ∧ ∀ id ∈ nodes, s'.Known id := by
  induction nodes generalizing s with
  | nil =>
    cases h
    exact ⟨.refl _, fun _ hm => absurd hm List.not_mem_nil⟩
  | cons id nodes ih =>
    by_cases hk : s.Known id
    · rw [lowerAll_cons_of_known hk] at h
      obtain ⟨hkeeps, hall⟩ := ih h
      exact ⟨hkeeps, List.forall_mem_cons.2 ⟨hkeeps.known hk, hall⟩⟩
    · obtain ⟨t, i, -, h⟩ := lowerAll_cons_eq_ok hk h
      obtain ⟨hkeeps, hall⟩ := ih h
      exact ⟨(keeps_add hk t i).trans hkeeps,
        List.forall_mem_cons.2 ⟨hkeeps.known (known_add s id t i), hall⟩⟩

/-- A node was known, or it is lowered with all nodes under it. -/
theorem lower_eq_ok {id : NodeId} {t : String} (h : lower d id s = (.ok t, s')) :
    s'.values[id]? = some t ∧
      (s' = s ∨ lowerAll d (d.walk id).order.toList s = (.ok (), s')) := by
  rw [lower] at h
  split at h
  · next hv =>
    cases h
    exact ⟨hv, Or.inl rfl⟩
  · rcases hl : lowerAll d (d.walk id).order.toList s with ⟨o, s₁⟩
    rw [hl] at h
    cases o with
    | error fault => cases h
    | ok =>
      obtain ⟨ht, rfl⟩ := Prod.mk.inj h
      exact ⟨operand_eq_ok ht, Or.inr rfl⟩

theorem lower_keeps {id : NodeId} {t : String} (h : lower d id s = (.ok t, s')) : s.Keeps s' := by
  rcases (lower_eq_ok h).2 with rfl | hl
  · exact .refl _
  · exact (lowerAll_keeps hl).1

theorem attempt_bind {β γ : Type} (f : ExceptT Fault (StateM Lowering) β)
    (g : β → ExceptT Fault (StateM Lowering) γ) (s : Lowering) :
    (f >>= g) s =
      match (f s : Except Fault β × Lowering) with
      | (.ok b, s) => g b s
      | (.error fault, s) => (.error fault, s) := by
  show (match (f s : Except Fault β × Lowering) with | (o, s) => ExceptT.bindCont g o s) = _
  rcases (f s : Except Fault β × Lowering) with ⟨o, s₁⟩
  cases o <;> rfl

theorem lowerList_cons_eq_ok {id : NodeId} {ids : List NodeId} {ts : List String}
    (h : lowerList d (id :: ids) s = (.ok ts, s')) :
    ∃ t rest s₁, lower d id s = (.ok t, s₁) ∧ lowerList d ids s₁ = (.ok rest, s') ∧
      ts = t :: rest := by
  rw [lowerList, attempt_bind] at h
  rcases hl : (lower d id s : Except Fault String × Lowering) with ⟨o, s₁⟩
  rw [hl] at h
  cases o with
  | error fault => cases h
  | ok t =>
    dsimp only at h
    rw [attempt_bind] at h
    rcases hr : (lowerList d ids s₁ : Except Fault (List String) × Lowering) with ⟨o, s₂⟩
    rw [hr] at h
    cases o with
    | error fault => cases h
    | ok rest =>
      cases h
      exact ⟨t, rest, s₁, rfl, hr, rfl⟩

theorem lowerList_keeps {ids : List NodeId} {ts : List String}
    (h : lowerList d ids s = (.ok ts, s')) :
    s.Keeps s' ∧ List.Forall₂ (fun id t => s'.values[id]? = some t) ids ts := by
  induction ids generalizing s ts with
  | nil =>
    cases h
    exact ⟨.refl _, .nil⟩
  | cons id ids ih =>
    obtain ⟨t, rest, s₁, hl, hr, rfl⟩ := lowerList_cons_eq_ok h
    obtain ⟨hkeeps, hall⟩ := ih hr
    exact ⟨(lower_keeps hl).trans hkeeps, .cons (hkeeps id t (lower_eq_ok hl).1) hall⟩

end SharedExpr.Lowering

import Mathlib.Data.List.Basic
import SharedExpr.Code.Reading

/-! Characters with quotes that are closed, and no break outside of them, are one field. -/
namespace SharedExpr

variable {isBreak isBreak' : Char → Bool} {a b w : List Char} {c : Char} {q q' q'' : Bool}

/-- From one state of quotation characters lead to another, with no break outside of quotes. -/
def Leads (isBreak : Char → Bool) : Bool → List Char → Bool → Prop
  | q, [], q' => q = q'
  | q, c :: cs, q' => (q = true ∨ isBreak c = false) ∧ Leads isBreak (q != (c == '"')) cs q'

def IsField (isBreak : Char → Bool) (w : List Char) : Prop :=
  Leads isBreak false w false

instance (isBreak : Char → Bool) (q : Bool) (w : List Char) (q' : Bool) :
    Decidable (Leads isBreak q w q') :=
  match w with
  | [] => inferInstanceAs (Decidable (q = q'))
  | c :: cs =>
    have := instDecidableLeads isBreak (q != (c == '"')) cs q'
    inferInstanceAs (Decidable (_ ∧ _))

instance (isBreak : Char → Bool) (w : List Char) : Decidable (IsField isBreak w) :=
  inferInstanceAs (Decidable (Leads isBreak false w false))

namespace Leads

theorem append (ha : Leads isBreak q a q') (hb : Leads isBreak q' b q'') :
    Leads isBreak q (a ++ b) q'' := by
  induction a generalizing q with
  | nil =>
    obtain rfl : q = q' := ha
    exact hb
  | cons c a ih => exact ⟨ha.1, ih ha.2⟩

theorem mono (hle : ∀ c, isBreak c = true → isBreak' c = true) (ha : Leads isBreak' q a q') :
    Leads isBreak q a q' := by
  induction a generalizing q with
  | nil => exact ha
  | cons c a ih =>
    refine ⟨ha.1.imp_right fun hc => ?_, ih ha.2⟩
    exact Bool.eq_false_iff.2 fun h => Bool.eq_false_iff.1 hc (hle c h)

theorem of_forall (h : ∀ c ∈ a, (q = true ∨ isBreak c = false) ∧ c ≠ '"') :
    Leads isBreak q a q := by
  induction a with
  | nil => exact rfl
  | cons c a ih =>
    obtain ⟨⟨hc, hq⟩, ha⟩ := List.forall_mem_cons.1 h
    refine ⟨hc, ?_⟩
    have hne : (c == '"') = false := beq_false_of_ne hq
    rw [hne, Bool.bne_false]
    exact ih ha

/-- Characters that lead on extend the first field of what follows. -/
theorem fields_append (ha : Leads isBreak q a q') (b : List Char) :
    fields isBreak q (a ++ b) = (fields isBreak q' b).modifyHead (a ++ ·) := by
  induction a generalizing q with
  | nil =>
    obtain rfl : q = q' := ha
    rw [List.nil_append]
    cases fields isBreak q b <;> rfl
  | cons c a ih =>
    obtain ⟨hc, ha⟩ := ha
    have hgo : ¬ (!q && isBreak c) = true := by rcases hc with hc | hc <;> simp [hc]
    rw [List.cons_append, fields, if_neg hgo, ih ha, List.modifyHead_modifyHead]
    rfl

end Leads

namespace IsField

theorem append (ha : IsField isBreak a) (hb : IsField isBreak b) : IsField isBreak (a ++ b) :=
  Leads.append ha hb

theorem of_forall (h : ∀ c ∈ a, isBreak c = false ∧ c ≠ '"') : IsField isBreak a :=
  Leads.of_forall fun c hc => ⟨.inr (h c hc).1, (h c hc).2⟩

theorem quoted (hq : isBreak '"' = false) (h : ∀ c ∈ a, c ≠ '"') :
    IsField isBreak ('"' :: (a ++ ['"'])) :=
  ⟨.inr hq, Leads.append (Leads.of_forall fun c hc => ⟨.inl rfl, h c hc⟩) ⟨.inl rfl, rfl⟩⟩

theorem intercalate {sep : List Char} (hs : IsField isBreak sep) {ws : List (List Char)}
    (hw : ∀ w ∈ ws, IsField isBreak w) : IsField isBreak (sep.intercalate ws) := by
  induction ws with
  | nil => exact rfl
  | cons w ws ih =>
    obtain ⟨hfirst, hws⟩ := List.forall_mem_cons.1 hw
    cases ws with
    | nil => simpa using hfirst
    | cons v ws =>
      rw [List.intercalate_cons_cons]
      exact (hfirst.append hs).append (ih hws)

theorem append_iff (ha : IsField isBreak a) : IsField isBreak (a ++ b) ↔ IsField isBreak b := by
  refine ⟨fun h => ?_, ha.append⟩
  suffices hab : ∀ {q}, Leads isBreak q a false → Leads isBreak q (a ++ b) false →
      Leads isBreak false b false from hab ha h
  clear h ha
  induction a with
  | nil =>
    rintro q hq h
    obtain rfl : q = false := hq
    exact h
  | cons c a ih => exact fun ha h => ih ha.2 h.2

/-- A field ends at the next break. -/
theorem fields_cons (hw : IsField isBreak w) (hc : isBreak c = true) (rest : List Char) :
    fields isBreak false (w ++ c :: rest) = w :: fields isBreak false rest := by
  rw [Leads.fields_append hw, fields, if_pos (by simpa using hc), List.modifyHead_cons,
    List.append_nil]

theorem fields_eq (hw : IsField isBreak w) : fields isBreak false w = [w] := by
  have h := Leads.fields_append hw []
  rwa [List.append_nil, fields, List.modifyHead_cons, List.append_nil] at h

end IsField

end SharedExpr

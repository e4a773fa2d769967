import SharedExpr.Double.Text
import SharedExpr.Proofs.Code.Line
import SharedExpr.Proofs.Code.Register

/-! The texts of registers and of constants are words. -/
namespace SharedExpr

namespace Register

theorem ne_of_mem_escape {name : List Char} : ∀ c ∈ name.flatMap escape, c ≠ '"' := by
  intro c hc
  obtain ⟨e, -, hc⟩ := List.mem_flatMap.1 hc
  rw [escape] at hc
  split at hc
  · simp only [List.mem_cons, List.not_mem_nil, or_false] at hc
    rcases hc with rfl | rfl | rfl <;> decide
  · split at hc
    · simp only [List.mem_cons, List.not_mem_nil, or_false] at hc
      rcases hc with rfl | rfl | rfl <;> decide
    · next hq => exact List.mem_singleton.1 hc ▸ hq

theorem isWord_quote (name : String) : IsWord (quote name) := by
  have hpercent : IsField isWordEnd ['%'] := by decide
  rw [IsWord, toList_quote]
  split
  · next hbare =>
    exact hpercent.append (isField_of_class (p := isBare) rfl (List.all_eq_true.1 hbare))
  · exact hpercent.append (IsField.quoted rfl ne_of_mem_escape)

/-- The text of a register is a word that is no keyword. -/
theorem isRegister_text (r : Register) : IsRegister r.text := by
  refine ⟨?_, head?_text r⟩
  cases r with
  | value name | address name => exact isWord_quote _
  | result node =>
    rw [IsWord, toList_text_result]
    exact IsField.append (a := ['%', '_']) (by decide) (isField_digits node)
  | slot i =>
    rw [IsWord, toList_text_slot]
    exact IsField.append (a := ['%', '_', 'o', 'u', 't']) (by decide) (isField_digits i)
  | aggregate i =>
    rw [IsWord, toList_text_aggregate]
    exact IsField.append (a := ['%', '_', 'a', 'g', 'g']) (by decide) (isField_digits i)
  | input | output => decide

end Register

def isConstantChar (c : Char) : Bool :=
  c.isAlphanum || c == '.' || c == '-'

theorem isConstantChar_digits (n : Nat) : ∀ c ∈ Nat.toDigits 10 n, isConstantChar c = true := by
  intro c hc
  have hd : c.isDigit = true := Nat.isDigit_of_mem_toDigits (by decide) (by decide) hc
  simp [isConstantChar, Char.isAlphanum, hd]

theorem isConstantChar_zeros (count : Nat) :
    ∀ c ∈ List.replicate count '0', isConstantChar c = true := by
  intro c hc
  rw [List.eq_of_mem_replicate hc]
  rfl

theorem isConstantChar_toString (i : Int) : ∀ c ∈ (toString i).toList, isConstantChar c = true := by
  cases i with
  | ofNat n =>
    have htext : (toString (Int.ofNat n)).toList = Nat.toDigits 10 n := by
      show (Nat.repr n).toList = _
      simp
    rw [htext]
    exact isConstantChar_digits n
  | negSucc n =>
    have htext : (toString (Int.negSucc n)).toList = '-' :: Nat.toDigits 10 (n + 1) := by
      show ("-" ++ Nat.repr (n + 1)).toList = _
      simp
    rw [htext]
    exact List.forall_mem_cons.2 ⟨rfl, isConstantChar_digits _⟩

namespace Decimal

theorem isConstantChar_positional (pointAlways : Bool) (d : Decimal) :
    ∀ c ∈ d.positional pointAlways, isConstantChar c = true := by
  have hd : ∀ c ∈ d.digits, isConstantChar c = true := isConstantChar_digits _
  rw [positional]
  split
  · refine List.forall_mem_append.2 ⟨List.forall_mem_append.2 ⟨hd, isConstantChar_zeros _⟩, ?_⟩
    cases pointAlways with
    | false => exact nofun
    | true => exact List.all_eq_true.1 rfl
  · dsimp only
    split
    · refine List.forall_mem_append.2 ⟨fun c hc => hd c (List.mem_of_mem_take hc), ?_⟩
      exact List.forall_mem_cons.2 ⟨rfl, fun c hc => hd c (List.mem_of_mem_drop hc)⟩
    · refine List.forall_mem_append.2 ⟨?_, hd⟩
      exact List.forall_mem_cons.2 ⟨rfl, List.forall_mem_cons.2 ⟨rfl, isConstantChar_zeros _⟩⟩

theorem isConstantChar_scientific (d : Decimal) :
    ∀ c ∈ d.scientific, isConstantChar c = true := by
  have hd : ∀ c ∈ d.digits, isConstantChar c = true := isConstantChar_digits _
  have htail : ∀ c ∈ if (d.digits.drop 1).isEmpty then [] else '.' :: d.digits.drop 1,
      isConstantChar c = true := by
    split
    · exact nofun
    · exact List.forall_mem_cons.2 ⟨rfl, fun c hc => hd c (List.mem_of_mem_drop hc)⟩
  refine List.forall_mem_append.2 ⟨List.forall_mem_append.2 ⟨fun c hc => ?_, htail⟩, ?_⟩
  · exact hd c (List.mem_of_mem_take hc)
  · exact List.forall_mem_cons.2 ⟨rfl, isConstantChar_toString _⟩

theorem isConstantChar_render (layout : Layout) (d : Decimal) :
    ∀ c ∈ d.render layout, isConstantChar c = true := by
  rw [render]
  split
  · exact isConstantChar_positional _ d
  · split
    · exact isConstantChar_positional _ d
    · exact isConstantChar_scientific d

end Decimal

namespace Double

theorem isConstantChar_digitChar : ∀ k < 16, isConstantChar (Nat.digitChar k).toUpper = true := by
  decide

/-- What holds of the sixteen digits holds of all digits of a bit pattern. -/
theorem forall_mem_hexDigits {p : Char → Prop} (hp : ∀ k < 16, p (Nat.digitChar k).toUpper)
    (bits : UInt64) : ∀ c ∈ hexDigits bits, p c := by
  have hdigits : ∀ n : Nat, ∀ c ∈ (Nat.toDigits 16 n).map Char.toUpper, p c := by
    intro n
    induction n using Nat.strongRecOn with
    | _ n ih =>
      by_cases hn : n < 16
      · rw [Nat.toDigits_of_lt_base hn]
        exact List.forall_mem_singleton.2 (hp n hn)
      · rw [Nat.toDigits_of_base_le (by decide) (by omega), List.map_append, List.forall_mem_append]
        exact ⟨ih (n / 16) (by omega), List.forall_mem_singleton.2 (hp _ (by omega))⟩
  rw [hexDigits, List.forall_mem_append]
  refine ⟨fun c hc => ?_, hdigits _⟩
  rw [List.eq_of_mem_replicate hc]
  exact hp 0 (by decide)

theorem isConstantChar_render (layout : Layout) (x : Double) :
    ∀ c ∈ (x.render layout).toList, isConstantChar c = true := by
  rw [render]
  split
  · exact List.all_eq_true.1 (by decide)
  · rw [String.toList_ofList, List.forall_mem_append]
    constructor
    · split
      · exact List.forall_mem_singleton.2 rfl
      · exact nofun
    · split
      · exact List.all_eq_true.1 rfl
      · exact Decimal.isConstantChar_render layout _

theorem isConstantChar_hexDigits (bits : UInt64) :
    ∀ c ∈ hexDigits bits, isConstantChar c = true :=
  forall_mem_hexDigits isConstantChar_digitChar bits

theorem isConstantChar_constant (x : Double) :
    ∀ c ∈ (constant x).toList, isConstantChar c = true := by
  rw [constant]
  split
  · exact isConstantChar_render .code x
  · have hl : ("0x" ++ String.ofList (hexDigits x.bits)).toList =
        ['0', 'x'] ++ hexDigits x.bits := by
      simp
    rw [hl, List.forall_mem_append]
    exact ⟨List.all_eq_true.1 rfl, isConstantChar_hexDigits _⟩

theorem isWord_constant (x : Double) : IsWord (constant x) :=
  isField_of_class (p := isConstantChar) rfl (isConstantChar_constant x)

end Double

end SharedExpr

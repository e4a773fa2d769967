import SharedExpr.Double.Text
import SharedExpr.Proofs.Code.Machine

/-! The text of a double in code is read back as the same bits. -/
namespace SharedExpr.Double

/-- The number that a decimal digit or a capital letter stands for. -/
def hexValue (c : Char) : Nat :=
  if c.isDigit then c.toNat - '0'.toNat else c.toNat - 'A'.toNat + 10

def readHex (ds : List Char) : Nat :=
  ds.foldl (fun n c => 16 * n + hexValue c) 0

/-- Reads the text of a constant in code: a bit pattern after `0x`, or else a decimal. -/
def readConstant? (text : String) : Option Double :=
  match text.toList with
  | '0' :: 'x' :: ds => some ⟨UInt64.ofNat (readHex ds)⟩
  | _ => read? text

theorem readHex_zeros (count : Nat) (ds : List Char) :
    readHex (List.replicate count '0' ++ ds) = readHex ds := by
  induction count with
  | zero => rfl
  | succ count ih =>
    rw [← ih, List.replicate_succ]
    rfl

theorem readHex_concat (ds : List Char) (c : Char) :
    readHex (ds ++ [c]) = 16 * readHex ds + hexValue c :=
  List.foldl_append

theorem hexValue_digitChar : ∀ k < 16, hexValue (Nat.digitChar k).toUpper = k := by
  decide

theorem readHex_toDigits (n : Nat) : readHex ((Nat.toDigits 16 n).map Char.toUpper) = n := by
  induction n using Nat.strongRecOn with
  | _ n ih =>
    by_cases hn : n < 16
    · rw [Nat.toDigits_of_lt_base hn]
      simpa [readHex] using hexValue_digitChar n hn
    · rw [Nat.toDigits_of_base_le (by decide) (by omega), List.map_append, List.map_singleton,
        readHex_concat, ih (n / 16) (by omega), hexValue_digitChar _ (by omega)]
      omega

theorem readHex_hexDigits (bits : UInt64) : readHex (hexDigits bits) = bits.toNat := by
  rw [hexDigits, readHex_zeros, readHex_toDigits]

/-- What reads as a decimal does not begin as a bit pattern. -/
theorem readConstant?_of_read? {text : String} {x : Double} (h : read? text = some x) :
    readConstant? text = some x := by
  rw [readConstant?]
  split
  · next ds hds =>
    rw [read?, hds] at h
    cases h
  · exact h

theorem readConstant?_constant (x : Double) : readConstant? (constant x) = some x := by
  rw [constant]
  split
  · next h => exact readConstant?_of_read? h.2.2
  · have hl : ("0x" ++ String.ofList (hexDigits x.bits)).toList =
        '0' :: 'x' :: hexDigits x.bits := by
      simp
    simp only [readConstant?, hl, readHex_hexDigits, UInt64.ofNat_toNat]

theorem readConstant?_register {text : String} (h : text.toList.head? = some '%') :
    readConstant? text = none := by
  obtain ⟨cs, hcs⟩ : ∃ cs, text.toList = '%' :: cs := List.head?_eq_some_iff.1 h
  rw [readConstant?, read?, hcs]
  rfl

instance : ReadableText Double where
  read? := readConstant?
  read?_constant := readConstant?_constant
  read?_register _ := readConstant?_register

end SharedExpr.Double

/-! The order of names is the order of their bytes. -/
namespace SharedExpr

def bytes (name : String) : List UInt8 :=
  name.toUTF8.data.toList

theorem bytes_eq (name : String) : bytes name = name.toList.flatMap String.utf8EncodeChar := by
  rw [bytes, String.toUTF8_eq_toByteArray, ← String.utf8Encode_toList, List.utf8Encode]
  simp

theorem cons_lt_cons_of_lt {m n : Nat} (h : m < n) (hn : n < 256) {xs ys : List UInt8} :
    UInt8.ofNat m :: xs < UInt8.ofNat n :: ys := by
  refine List.cons_lt_cons_iff.2 (Or.inl ?_)
  rw [UInt8.lt_iff_toNat_lt, UInt8.toNat_ofNat', UInt8.toNat_ofNat']
  omega

theorem cons_lt_cons_of_le {m n : Nat} (h : m ≤ n) (hn : n < 256) {xs ys : List UInt8}
    (hxs : m = n → xs < ys) : UInt8.ofNat m :: xs < UInt8.ofNat n :: ys := by
  rcases Nat.lt_or_eq_of_le h with hlt | rfl
  · exact cons_lt_cons_of_lt hlt hn
  · exact List.cons_lt_cons_iff.2 (Or.inr ⟨rfl, hxs rfl⟩)

/-- The encodings of two characters differ in the order of the characters before either ends. -/
theorem utf8EncodeChar_lt {c d : Char} (h : c < d) (xs ys : List UInt8) :
    String.utf8EncodeChar c ++ xs < String.utf8EncodeChar d ++ ys := by
  have hlt : c.val.toNat < d.val.toNat := h
  have hd : d.val.toNat < 0x110000 := by
    have hv := d.valid
    simp only [UInt32.isValidChar, Nat.isValidChar] at hv
    omega
  unfold String.utf8EncodeChar
  generalize c.val.toNat = m at *
  generalize d.val.toNat = n at *
  dsimp only
  repeat' split
  all_goals try omega
  all_goals simp only [List.cons_append, List.nil_append]
  -- Encodings of different lengths differ in the first byte.
  all_goals try exact cons_lt_cons_of_lt (by omega) (by omega)
  · exact cons_lt_cons_of_le (by omega) (by omega) fun h₁ =>
      cons_lt_cons_of_lt (by omega) (by omega)
  · exact cons_lt_cons_of_le (by omega) (by omega) fun h₁ =>
      cons_lt_cons_of_le (by omega) (by omega) fun h₂ =>
      cons_lt_cons_of_lt (by omega) (by omega)
  · exact cons_lt_cons_of_le (by omega) (by omega) fun h₁ =>
      cons_lt_cons_of_le (by omega) (by omega) fun h₂ =>
      cons_lt_cons_of_le (by omega) (by omega) fun h₃ =>
      cons_lt_cons_of_lt (by omega) (by omega)

theorem flatMap_utf8EncodeChar_lt {cs ds : List Char} (h : cs < ds) :
    cs.flatMap String.utf8EncodeChar < ds.flatMap String.utf8EncodeChar := by
  induction cs generalizing ds with
  | nil =>
    cases ds with
    | nil => exact absurd h (List.not_lt_nil _)
    | cons d ds =>
      obtain ⟨b, bs, hb⟩ := List.exists_cons_of_ne_nil (String.utf8EncodeChar_ne_nil (c := d))
      rw [List.flatMap_cons, hb]
      exact List.nil_lt_cons b _
  | cons c cs ih =>
    cases ds with
    | nil => exact absurd h (List.not_lt_nil _)
    | cons d ds =>
      rw [List.flatMap_cons, List.flatMap_cons]
      rcases List.cons_lt_cons_iff.1 h with hcd | ⟨rfl, hcs⟩
      · exact utf8EncodeChar_lt hcd _ _
      · exact List.append_left_lt (ih hcs)

/-- A name that comes before another does so by its bytes. -/
theorem bytes_lt {a b : String} (h : a < b) : bytes a < bytes b := by
  rw [bytes_eq, bytes_eq]
  exact flatMap_utf8EncodeChar_lt h

end SharedExpr

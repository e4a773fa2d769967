import SharedExpr.Code.Register

/-! The texts of registers are read back, so that no two registers have the same text. -/
namespace SharedExpr.Register

def unescape : List Char → List Char
  | '\\' :: '5' :: 'C' :: cs => '\\' :: unescape cs
  | '\\' :: '2' :: '2' :: cs => '"' :: unescape cs
  | '"' :: _ => []
  | c :: cs => c :: unescape cs
  | [] => []

def readName? : List Char → Option Register
  | 'v' :: '.' :: name => some (.value (String.ofList name))
  | 'p' :: '.' :: name => some (.address (String.ofList name))
  | _ => none

def readReserved (cs : List Char) : Register :=
  if cs = ['i', 'n', 'p', 'u', 't'] then .input
  else if cs = ['o', 'u', 't', 'p', 'u', 't'] then .output
  else
    match cs with
    | 'o' :: 'u' :: 't' :: digits => .slot (Nat.ofDigitChars 10 digits 0)
    | 'a' :: 'g' :: 'g' :: digits => .aggregate (Nat.ofDigitChars 10 digits 0)
    | digits => .result (Nat.ofDigitChars 10 digits 0)

/-- Reads the text of a register. -/
def read? (text : String) : Option Register :=
  match text.toList with
  | '%' :: '_' :: cs => some (readReserved cs)
  | '%' :: '"' :: cs => readName? (unescape cs)
  | '%' :: cs => readName? cs
  | _ => none

theorem unescape_cons {c : Char} (hb : c ≠ '\\') (hq : c ≠ '"') (cs : List Char) :
    unescape (c :: cs) = c :: unescape cs := by
  rw [unescape.eq_def]
  split
  · next h => exact absurd (List.cons.inj h).1 hb
  · next h => exact absurd (List.cons.inj h).1 hb
  · next h => exact absurd (List.cons.inj h).1 hq
  · next h =>
    obtain ⟨rfl, rfl⟩ := List.cons.inj h
    rfl
  · next h => cases h

theorem unescape_escape (cs : List Char) : unescape (cs.flatMap escape ++ ['"']) = cs := by
  induction cs with
  | nil => rfl
  | cons c cs ih =>
    rw [List.flatMap_cons, List.append_assoc]
    by_cases hb : c = '\\'
    · subst hb
      exact congrArg ('\\' :: ·) ih
    · by_cases hq : c = '"'
      · subst hq
        exact congrArg ('"' :: ·) ih
      · rw [escape, if_neg hb, if_neg hq, List.singleton_append, unescape_cons hb hq, ih]

theorem toList_quote (name : String) :
    (quote name).toList =
      if name.toList.all isBare then '%' :: name.toList
      else '%' :: '"' :: (name.toList.flatMap escape ++ ['"']) := by
  rw [quote]
  split
  · simp
  · simp

/-- A name that begins with a letter is read back, with or without quotes. -/
theorem read?_quote {name : String} {c : Char} {cs : List Char} (hn : name.toList = c :: cs)
    (hu : c ≠ '_') (hq : c ≠ '"') : read? (quote name) = readName? name.toList := by
  by_cases hbare : name.toList.all isBare
  · rw [read?, toList_quote, if_pos hbare, hn]
    split
    · next h => exact absurd (List.cons.inj (List.cons.inj h).2).1 hu
    · next h => exact absurd (List.cons.inj (List.cons.inj h).2).1 hq
    · next h => rw [(List.cons.inj h).2]
    · next h => exact absurd rfl (h _)
  · rw [read?, toList_quote, if_neg hbare]
    show readName? (unescape _) = _
    rw [unescape_escape]

theorem exists_digit (n : Nat) : ∃ c cs, Nat.toDigits 10 n = c :: cs ∧ c.isDigit := by
  obtain ⟨c, cs, hcs⟩ := List.exists_cons_of_ne_nil (Nat.toDigits_ne_nil (b := 10) (n := n))
  exact ⟨c, cs, hcs, Nat.isDigit_of_mem_toDigits (by decide) (by decide) (hcs ▸ List.mem_cons_self)⟩

theorem toList_text_result (node : NodeId) :
    (text (result node)).toList = '%' :: '_' :: Nat.toDigits 10 node := by
  have h : text (result node) = "%_" ++ Nat.repr node := rfl
  simp [h]

theorem toList_text_slot (i : Nat) :
    (text (slot i)).toList = '%' :: '_' :: 'o' :: 'u' :: 't' :: Nat.toDigits 10 i := by
  have h : text (slot i) = "%_out" ++ Nat.repr i := rfl
  simp [h]

theorem toList_text_aggregate (i : Nat) :
    (text (aggregate i)).toList = '%' :: '_' :: 'a' :: 'g' :: 'g' :: Nat.toDigits 10 i := by
  have h : text (aggregate i) = "%_agg" ++ Nat.repr i := rfl
  simp [h]

theorem read?_text (r : Register) : read? r.text = some r := by
  have hne : ∀ {c letter : Char}, c.isDigit → letter.isDigit = false → c ≠ letter := by
    rintro c letter hc hl rfl
    simp [hl] at hc
  cases r with
  | value name =>
    have hn : ("v." ++ name).toList = 'v' :: '.' :: name.toList := by simp
    rw [text, read?_quote hn (by decide) (by decide), hn, readName?, String.ofList_toList]
  | address name =>
    have hn : ("p." ++ name).toList = 'p' :: '.' :: name.toList := by simp
    rw [text, read?_quote hn (by decide) (by decide), hn, readName?, String.ofList_toList]
  | result node =>
    obtain ⟨c, cs, hcs, hc⟩ := exists_digit node
    have hi : c ≠ 'i' := hne hc (by decide)
    have ho : c ≠ 'o' := hne hc (by decide)
    have ha : c ≠ 'a' := hne hc (by decide)
    have hr : readReserved (Nat.toDigits 10 node) = .result node := by
      rw [readReserved, if_neg (by simp [hcs, hi]), if_neg (by simp [hcs, ho]),
        Nat.ofDigitChars_ten_toDigits]
      · exact fun digits h => ho (List.cons.inj (hcs.symm.trans h)).1
      · exact fun digits h => ha (List.cons.inj (hcs.symm.trans h)).1
    rw [read?, toList_text_result]
    exact congrArg some hr
  | slot i =>
    obtain ⟨c, cs, hcs, hc⟩ := exists_digit i
    have hp : c ≠ 'p' := hne hc (by decide)
    have hr : readReserved ('o' :: 'u' :: 't' :: Nat.toDigits 10 i) = .slot i := by
      rw [readReserved, if_neg (by simp), if_neg (by simp [hcs, hp]), Nat.ofDigitChars_ten_toDigits]
    rw [read?, toList_text_slot]
    exact congrArg some hr
  | aggregate i =>
    have hr : readReserved ('a' :: 'g' :: 'g' :: Nat.toDigits 10 i) = .aggregate i := by
      rw [readReserved, if_neg (by simp), if_neg (by simp), Nat.ofDigitChars_ten_toDigits]
    rw [read?, toList_text_aggregate]
    exact congrArg some hr
  | input => rfl
  | output => rfl

theorem head?_text (r : Register) : r.text.toList.head? = some '%' := by
  cases r with
  | value name | address name =>
    rw [text, toList_quote]
    split <;> rfl
  | result node => rw [toList_text_result, List.head?_cons]
  | slot i => rw [toList_text_slot, List.head?_cons]
  | aggregate i => rw [toList_text_aggregate, List.head?_cons]
  | input | output => rfl

theorem text_injective {a b : Register} (h : a.text = b.text) : a = b := by
  have hb := read?_text b
  rw [← h, read?_text] at hb
  exact Option.some.inj hb

end SharedExpr.Register

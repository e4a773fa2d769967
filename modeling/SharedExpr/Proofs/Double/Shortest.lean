import Mathlib
import SharedExpr.Double.Text
import SharedExpr.Proofs.Double.Nearest

/-! The shortest text of a finite double reads back as the double, bit by bit. -/
namespace SharedExpr

namespace Decimal

theorem toRat_value (d : Decimal) : d.value.toRat = d.coefficient * (10 : ℚ) ^ d.place := by
  rw [value, Fraction.toRat_scaled _ (by decide)]
  norm_num

/-- Zeros at the end are of no account. -/
theorem toRat_value_trim (d : Decimal) (fuel : Nat) :
    (d.trim fuel).value.toRat = d.value.toRat := by
  induction fuel generalizing d with
  | zero => rfl
  | succ fuel ih =>
    rw [trim]
    split
    · next h =>
      have hcoefficient : (d.coefficient : ℚ) = (d.coefficient / 10 : Nat) * 10 := by
        exact_mod_cast (Nat.div_mul_cancel (Nat.dvd_of_mod_eq_zero h.2)).symm
      rw [ih, toRat_value, toRat_value, hcoefficient, zpow_add_one₀ (by norm_num)]
      ring
    · rfl

theorem den_value_pos (d : Decimal) : 0 < d.value.den :=
  Fraction.den_scaled_pos _ (by decide) _

theorem count_toDigits (n : Nat) : count (Nat.toDigits 10 n) = n :=
  Nat.ofDigitChars_ten_toDigits

theorem count_append_zeros (ds : List Char) (n : Nat) :
    count (ds ++ List.replicate n '0') = count ds * 10 ^ n := by
  induction n with
  | zero => simp
  | succ n ih =>
    rw [List.replicate_succ', ← List.append_assoc, count, List.foldl_append]
    show 10 * count (ds ++ List.replicate n '0') + 0 = _
    rw [ih]
    ring

theorem count_zeros_append (n : Nat) (ds : List Char) :
    count (List.replicate n '0' ++ ds) = count ds := by
  induction n with
  | zero => rfl
  | succ n ih => exact ih

theorem takeDigits_append {ds : List Char} (hds : ∀ c ∈ ds, c.isDigit) {rest : List Char}
    (hrest : ∀ c, rest.head? = some c → c.isDigit = false) :
    takeDigits (ds ++ rest) = (ds, rest) := by
  have hstop : rest.takeWhile Char.isDigit = [] ∧ rest.dropWhile Char.isDigit = rest := by
    cases rest with
    | nil => exact ⟨rfl, rfl⟩
    | cons c cs =>
      have hc := hrest c rfl
      exact ⟨List.takeWhile_cons_of_neg (by simp [hc]), List.dropWhile_cons_of_neg (by simp [hc])⟩
  rw [takeDigits, List.takeWhile_append_of_pos hds, List.dropWhile_append_of_pos hds, hstop.1,
    hstop.2, List.append_nil]

theorem isDigit_digits (d : Decimal) : ∀ c ∈ d.digits, c.isDigit :=
  fun _ hc => Nat.isDigit_of_mem_toDigits (by decide) (by decide) hc

theorem isDigit_zeros (n : Nat) : ∀ c ∈ List.replicate n '0', c.isDigit := by
  intro c hc
  rw [List.eq_of_mem_replicate hc]
  rfl

theorem read?_whole {ds : List Char} (hds : ∀ c ∈ ds, c.isDigit) (hne : ds ≠ []) :
    read? ds = some ⟨count ds, 0⟩ := by
  have htake : takeDigits (ds ++ []) = _ := takeDigits_append hds (by simp)
  rw [List.append_nil] at htake
  rw [read?, htake]
  simp [hne, readExponent?]

theorem read?_point {whole places : List Char} (hwhole : ∀ c ∈ whole, c.isDigit)
    (hplaces : ∀ c ∈ places, c.isDigit) (hne : whole ≠ []) :
    read? (whole ++ '.' :: places) = some ⟨count (whole ++ places), -places.length⟩ := by
  have htake : takeDigits (whole ++ '.' :: places) = _ := takeDigits_append hwhole (by simp)
  have hrest : takeDigits (places ++ []) = _ := takeDigits_append hplaces (by simp)
  rw [List.append_nil] at hrest
  rw [read?, htake]
  simp [hrest, hne, readExponent?]

/-- The digits of a decimal at their places are read as its value. -/
theorem read?_positional (d : Decimal) :
    ∃ d', read? (d.positional false) = some d' ∧ d'.value.toRat = d.value.toRat := by
  have hdigits := d.isDigit_digits
  have hne : d.digits ≠ [] := Nat.toDigits_ne_nil
  have hcount : count d.digits = d.coefficient := count_toDigits d.coefficient
  rw [positional]
  dsimp only
  split
  · next hplace =>
    obtain ⟨n, hn⟩ := Int.eq_ofNat_of_zero_le hplace
    refine ⟨_, read?_whole ?_ (by simp [hne]), ?_⟩
    · simpa [or_imp, forall_and] using hdigits
    · simp [toRat_value, count_append_zeros, hcount, hn]
  · next hplace =>
    obtain ⟨n, hn⟩ : ∃ n : Nat, d.place = -n := ⟨(-d.place).toNat, by omega⟩
    have hlength : (-d.place).toNat = n := by omega
    have hself : (⟨d.coefficient, -(n : Int)⟩ : Decimal) = d := by rw [← hn]
    rw [hlength]
    split
    · next hlt =>
      refine ⟨d, ?_, rfl⟩
      rw [read?_point (fun c hc => hdigits c (List.mem_of_mem_take hc))
        (fun c hc => hdigits c (List.mem_of_mem_drop hc)), List.take_append_drop, hcount,
        List.length_drop, Nat.sub_sub_self (Nat.le_of_lt hlt), hself]
      intro hnil
      rcases List.take_eq_nil_iff.1 hnil with hzero | hzero
      · omega
      · exact hne hzero
    · next hlt =>
      refine ⟨d, ?_, rfl⟩
      have hread : read? (['0'] ++ '.' :: (List.replicate (n - d.digits.length) '0' ++ d.digits)) =
          _ :=
        read?_point (by simp) (List.forall_mem_append.2 ⟨isDigit_zeros _, hdigits⟩) (by simp)
      rw [List.singleton_append, ← List.append_assoc] at hread
      rw [List.cons_append, List.cons_append, hread, List.singleton_append, ← List.replicate_succ,
        count_zeros_append, hcount, List.length_append, List.length_replicate,
        Nat.sub_add_cancel (Nat.le_of_not_lt hlt), hself]

theorem exists_positional (pointAlways : Bool) (d : Decimal) :
    ∃ c cs, d.positional pointAlways = c :: cs ∧ c.isDigit := by
  have hdigits := d.isDigit_digits
  obtain ⟨c, cs, hcs⟩ := List.exists_cons_of_ne_nil (Nat.toDigits_ne_nil (b := 10)
    (n := d.coefficient))
  have hcs : d.digits = c :: cs := hcs
  have hc : c.isDigit := hdigits c (hcs ▸ List.mem_cons_self)
  rw [positional]
  dsimp only
  split
  · exact ⟨c, _, by rw [hcs, List.append_assoc, List.cons_append], hc⟩
  · split
    · next hlt =>
      obtain ⟨k, hk⟩ : ∃ k, d.digits.length - (-d.place).toNat = k + 1 :=
        ⟨d.digits.length - (-d.place).toNat - 1, by omega⟩
      rw [hk, hcs]
      exact ⟨c, _, rfl, hc⟩
    · exact ⟨'0', _, rfl, rfl⟩

end Decimal

namespace Double

/-- The exact value of a double has a power of two for its denominator. -/
theorem den_exact (x : Double) : ∃ k, x.exact.den = 2 ^ k := by
  have hscaled : ∀ m e, ∃ k, (Fraction.scaled m 2 e).den = 2 ^ k := by
    intro m e
    rw [Fraction.scaled]
    split
    · exact ⟨0, rfl⟩
    · exact ⟨_, rfl⟩
  rw [exact]
  split
  · exact hscaled _ _
  · exact hscaled _ _

theorem toRat_expansion (x : Double) : x.expansion.value.toRat = x.exact.toRat := by
  obtain ⟨k, hk⟩ := x.den_exact
  have hfive : ((Nat.pow 5 k : Nat) : ℚ) = 5 ^ k := Nat.cast_pow 5 k
  have hpow : (10 : ℚ) ^ k = 2 ^ k * 5 ^ k := by
    rw [← mul_pow]
    norm_num
  rw [Decimal.toRat_value, expansion, Fraction.toRat, hk, Nat.log2_two_pow]
  push_cast
  rw [hfive, zpow_neg, zpow_natCast, hpow]
  field_simp

/-- The shortest decimal of a finite double is rounded to the double. -/
theorem nearestBits_shortest {x : Double} (hx : x.isFinite) :
    nearestBits x.shortest.value = x.magnitude.toNat := by
  rw [shortest]
  split
  · next hzero =>
    rw [isZero, beq_iff_eq] at hzero
    rw [hzero]
    rfl
  · rw [nearestBits_congr (Decimal.den_value_pos _) (Decimal.den_value_pos _)
      (Decimal.toRat_value_trim _ _)]
    cases hfound : (List.range 17).findSome? fun n => x.shortened? (n + 1) with
    | none =>
      rw [Option.getD_none, nearestBits_congr (Decimal.den_value_pos _) (den_exact_pos x)
        (toRat_expansion x), nearestBits_exact hx]
    | some d =>
      obtain ⟨n, -, hn⟩ := List.exists_of_findSome?_eq_some hfound
      exact beq_iff_eq.1 (List.find?_some (p := x.readBy) hn)

theorem negative_eq_getElem (x : Double) : x.negative = x.bits.toBitVec[63] := by
  have hlt : x.bits.toBitVec.toNat < 2 ^ 64 := x.bits.toBitVec.isLt
  have hnegative : x.negative = decide (x.bits >>> 63 = 1) := rfl
  rw [hnegative, Bool.eq_iff_iff, decide_eq_true_iff, ← UInt64.toNat_inj, UInt64.toNat_shiftRight,
    ← BitVec.getLsbD_eq_getElem, BitVec.getLsbD, Nat.testBit_eq_decide_div_mod_eq,
    decide_eq_true_iff]
  show x.bits.toBitVec.toNat >>> 63 = 1 ↔ _
  rw [Nat.shiftRight_eq_div_pow]
  omega

/-- A double is its magnitude with its sign. -/
theorem eq_signed (x : Double) :
    x = if x.negative then (⟨x.magnitude⟩ : Double).neg else ⟨x.magnitude⟩ := by
  have hmask : ∀ i : Fin 64, (0x7fffffffffffffff#64)[i] = decide (i.val ≠ 63) := by decide
  have hsign : ∀ i : Fin 64, (0x8000000000000000#64)[i] = decide (i.val = 63) := by decide
  have hbits : x.bits =
      if x.negative then x.magnitude ^^^ 0x8000000000000000 else x.magnitude := by
    apply UInt64.toBitVec_inj.1
    rw [apply_ite UInt64.toBitVec, negative_eq_getElem]
    ext i hi
    have hm := hmask ⟨i, hi⟩
    have hs := hsign ⟨i, hi⟩
    simp only [Fin.getElem_fin] at hm hs
    by_cases h63 : i = 63
    · subst h63
      split <;> simp_all [magnitude]
    · split <;> simp_all [magnitude]
  by_cases hn : x.negative
  · rw [if_pos hn] at hbits ⊢
    exact congrArg mk hbits
  · rw [if_neg hn] at hbits ⊢
    exact congrArg mk hbits

theorem nearest_of_nearestBits {x : Double} {value : Fraction}
    (h : nearestBits value = x.magnitude.toNat) : nearest x.negative value = x := by
  rw [nearest, h, UInt64.ofNat_toNat]
  exact x.eq_signed.symm

theorem isFinite_iff (x : Double) :
    x.isFinite = true ↔ x.isNaN = false ∧ x.isInfinite = false := by
  simp only [isFinite, isNaN, isInfinite, decide_eq_true_iff, decide_eq_false_iff_not,
    beq_eq_false_iff_ne, ne_eq, UInt64.lt_iff_toNat_lt, ← UInt64.toNat_inj]
  omega

theorem toList_render_plain {x : Double} (hx : x.isFinite) :
    (x.render .plain).toList =
      (if x.negative then ['-'] else []) ++ x.shortest.positional false := by
  obtain ⟨hnan, hinfinite⟩ := x.isFinite_iff.1 hx
  rw [render, hnan, hinfinite]
  exact String.toList_ofList

/-- A finite double is read back from its text. -/
theorem read?_render_plain {x : Double} (hx : x.isFinite) : read? (x.render .plain) = some x := by
  obtain ⟨d, hd, hvalue⟩ := x.shortest.read?_positional
  have hbits : nearestBits d.value = x.magnitude.toNat := by
    rw [nearestBits_congr (Decimal.den_value_pos _) (Decimal.den_value_pos _) hvalue,
      nearestBits_shortest hx]
  have hnearest := nearest_of_nearestBits hbits
  rw [read?, toList_render_plain hx]
  by_cases hn : x.negative
  · rw [hn] at hnearest
    rw [if_pos hn]
    show (Decimal.read? (x.shortest.positional false)).map _ = _
    rw [hd, Option.map_some, hnearest]
  · rw [Bool.not_eq_true] at hn
    rw [hn] at hnearest
    obtain ⟨c, cs, hcs, hc⟩ := x.shortest.exists_positional false
    rw [if_neg (by simp [hn]), List.nil_append, hcs]
    split
    · next hminus =>
      obtain ⟨rfl, -⟩ := List.cons.inj hminus
      cases hc
    · rw [← hcs, hd, Option.map_some, hnearest]

end Double

end SharedExpr

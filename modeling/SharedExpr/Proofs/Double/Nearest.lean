import Mathlib
import SharedExpr.Double.Nearest

/-! Rounding depends on the value of a fraction only, and a finite double is the one nearest to its
exact value. -/
namespace SharedExpr

theorem roundHalfEven_mul_mul (num den : Nat) {k : Nat} (hk : 0 < k) :
    roundHalfEven (num * k) (den * k) = roundHalfEven num den := by
  have hlt : ∀ a b : Nat, a * k < b * k ↔ a < b := fun a b => Nat.mul_lt_mul_right hk
  simp only [roundHalfEven, Nat.mul_div_mul_right num den hk, Nat.mul_mod_mul_right, ← mul_assoc,
    hlt]

namespace Fraction

def toRat (x : Fraction) : ℚ :=
  x.num / x.den

theorem den_scaled_pos (m : Nat) {base : Nat} (hb : 0 < base) (exponent : Int) :
    0 < (scaled m base exponent).den := by
  rw [scaled]
  split
  · exact Nat.one_pos
  · exact Nat.pow_pos hb

theorem toRat_scaled (m : Nat) {base : Nat} (hb : 0 < base) (exponent : Int) :
    (scaled m base exponent).toRat = m * (base : ℚ) ^ exponent := by
  have hb : (base : ℚ) ≠ 0 := by exact_mod_cast hb.ne'
  rw [scaled]
  split
  · next he =>
    obtain ⟨n, rfl⟩ := Int.eq_ofNat_of_zero_le he
    simp [toRat]
  · next he =>
    obtain ⟨n, rfl⟩ : ∃ n : Nat, exponent = -n := ⟨(-exponent).toNat, by omega⟩
    simp [toRat, div_eq_mul_inv]

variable {x y : Fraction}

theorem toRat_le_iff (hx : 0 < x.den) (hy : 0 < y.den) :
    x.toRat ≤ y.toRat ↔ x.num * y.den ≤ y.num * x.den := by
  rw [toRat, toRat, div_le_div_iff₀ (by exact_mod_cast hx) (by exact_mod_cast hy)]
  exact_mod_cast Iff.rfl

theorem toRat_eq_iff (hx : 0 < x.den) (hy : 0 < y.den) :
    x.toRat = y.toRat ↔ x.num * y.den = y.num * x.den := by
  have hx : (x.den : ℚ) ≠ 0 := by exact_mod_cast hx.ne'
  have hy : (y.den : ℚ) ≠ 0 := by exact_mod_cast hy.ne'
  rw [toRat, toRat, div_eq_div_iff hx hy]
  exact_mod_cast Iff.rfl

theorem toRat_pos (hnum : 0 < x.num) (hden : 0 < x.den) : 0 < x.toRat :=
  div_pos (by exact_mod_cast hnum) (by exact_mod_cast hden)

theorem le_log_iff (hnum : 0 < x.num) (hden : 0 < x.den) (k : Int) :
    k ≤ Int.log 2 x.toRat ↔ (2 : ℚ) ^ k ≤ x.toRat := by
  exact_mod_cast (Int.zpow_le_iff_le_log (b := 2) (by decide) (toRat_pos hnum hden)).symm

/-- The lengths of numerator and denominator leave two choices for the binary exponent. -/
theorem log_toRat_bounds (hnum : 0 < x.num) (hden : 0 < x.den) :
    (x.num.log2 : Int) - x.den.log2 - 1 ≤ Int.log 2 x.toRat ∧
      Int.log 2 x.toRat < (x.num.log2 : Int) - x.den.log2 - 1 + 2 := by
  have hnumLow : (2 : ℚ) ^ (x.num.log2 : Int) ≤ x.num := by
    exact_mod_cast Nat.log2_self_le hnum.ne'
  have hnumHigh : (x.num : ℚ) < 2 ^ (x.num.log2 + 1 : Int) := by
    exact_mod_cast Nat.lt_log2_self (n := x.num)
  have hdenLow : (2 : ℚ) ^ (x.den.log2 : Int) ≤ x.den := by
    exact_mod_cast Nat.log2_self_le hden.ne'
  have hdenHigh : (x.den : ℚ) < 2 ^ (x.den.log2 + 1 : Int) := by
    exact_mod_cast Nat.lt_log2_self (n := x.den)
  have hden' : (0 : ℚ) < x.den := by exact_mod_cast hden
  constructor
  · rw [le_log_iff hnum hden, toRat, le_div_iff₀ hden']
    calc (2 : ℚ) ^ ((x.num.log2 : Int) - x.den.log2 - 1) * x.den
        ≤ 2 ^ ((x.num.log2 : Int) - x.den.log2 - 1) * 2 ^ (x.den.log2 + 1 : Int) := by gcongr
      _ = 2 ^ (x.num.log2 : Int) := by
        rw [← zpow_add₀ (by norm_num)]
        congr 1
        omega
      _ ≤ x.num := hnumLow
  · rw [← not_le, le_log_iff hnum hden, not_le, toRat, div_lt_iff₀ hden']
    calc (x.num : ℚ) < 2 ^ (x.num.log2 + 1 : Int) := hnumHigh
      _ = 2 ^ ((x.num.log2 : Int) - x.den.log2 - 1 + 2) * 2 ^ (x.den.log2 : Int) := by
        rw [← zpow_add₀ (by norm_num)]
        congr 1
        omega
      _ ≤ 2 ^ ((x.num.log2 : Int) - x.den.log2 - 1 + 2) * x.den := by gcongr

/-- The binary exponent is that of the greatest power of two up to the value. -/
theorem binaryExponent_eq_log (hnum : 0 < x.num) (hden : 0 < x.den) :
    x.binaryExponent = Int.log 2 x.toRat := by
  obtain ⟨hlow, hhigh⟩ := log_toRat_bounds hnum hden
  have hnext : ∀ k : Int,
      (scaled 1 2 k).num * x.den ≤ x.num * (scaled 1 2 k).den ↔ k ≤ Int.log 2 x.toRat := by
    intro k
    rw [← toRat_le_iff (den_scaled_pos 1 (by decide) k) hden, toRat_scaled 1 (by decide),
      le_log_iff hnum hden]
    simp
  rw [binaryExponent, exponentFrom]
  split
  · next h =>
    rw [hnext] at h
    rw [exponentFrom]
    omega
  · next h =>
    rw [hnext] at h
    omega

end Fraction

namespace Double

open Fraction

/-- Fractions of one value are rounded alike. -/
theorem nearestBits_congr {x y : Fraction} (hx : 0 < x.den) (hy : 0 < y.den)
    (h : x.toRat = y.toRat) : nearestBits x = nearestBits y := by
  have hcross := (toRat_eq_iff hx hy).1 h
  by_cases hzero : x.num = 0
  · have hzero' : y.num = 0 := by
      rw [hzero, Nat.zero_mul] at hcross
      exact (Nat.mul_eq_zero.1 hcross.symm).resolve_right hx.ne'
    rw [nearestBits, nearestBits, if_pos hzero, if_pos hzero']
  · have hzero' : y.num ≠ 0 := by
      intro he
      rw [he, Nat.zero_mul] at hcross
      exact (Nat.mul_eq_zero.1 hcross).elim hzero hy.ne'
    have hexponent : x.binaryExponent = y.binaryExponent := by
      rw [binaryExponent_eq_log (Nat.pos_of_ne_zero hzero) hx,
        binaryExponent_eq_log (Nat.pos_of_ne_zero hzero') hy, h]
    have hround : ∀ unit : Fraction, roundHalfEven (x.num * unit.den) (x.den * unit.num) =
        roundHalfEven (y.num * unit.den) (y.den * unit.num) := by
      intro unit
      rw [← roundHalfEven_mul_mul (x.num * unit.den) (x.den * unit.num) hy,
        ← roundHalfEven_mul_mul (y.num * unit.den) (y.den * unit.num) hx,
        Nat.mul_right_comm x.num, hcross, Nat.mul_right_comm y.num, Nat.mul_right_comm x.den,
        Nat.mul_comm x.den y.den, Nat.mul_right_comm y.den]
    rw [nearestBits, nearestBits, if_neg hzero, if_neg hzero', hexponent]
    simp only [hround]

theorem roundHalfEven_scaled (m : Nat) (place : Int) :
    roundHalfEven ((scaled m 2 place).num * (scaled 1 2 place).den)
      ((scaled m 2 place).den * (scaled 1 2 place).num) = m := by
  have hden := den_scaled_pos m Nat.two_pos place
  have hvalue := toRat_scaled m Nat.two_pos place
  have hunitDen := den_scaled_pos 1 Nat.two_pos place
  have hunit := toRat_scaled 1 Nat.two_pos place
  push_cast at hvalue hunit
  rw [one_mul] at hunit
  have hunitNum : 0 < (scaled 1 2 place).num := by
    rw [Nat.pos_iff_ne_zero]
    intro he
    rw [toRat, he, Nat.cast_zero, zero_div] at hunit
    exact (zpow_pos (by norm_num : (0 : ℚ) < 2) place).ne hunit
  have hcross : (scaled m 2 place).num * (scaled 1 2 place).den =
      m * ((scaled m 2 place).den * (scaled 1 2 place).num) := by
    have hden : ((scaled m 2 place).den : ℚ) ≠ 0 := by exact_mod_cast hden.ne'
    have hunitDen : ((scaled 1 2 place).den : ℚ) ≠ 0 := by exact_mod_cast hunitDen.ne'
    rw [← hunit, toRat, toRat, mul_div_assoc', div_eq_div_iff hden hunitDen] at hvalue
    have hcast : (scaled m 2 place).num * (scaled 1 2 place).den =
        m * (scaled 1 2 place).num * (scaled m 2 place).den := by exact_mod_cast hvalue
    rw [hcast, Nat.mul_assoc, Nat.mul_comm (scaled 1 2 place).num]
  rw [hcross]
  exact roundHalfEven_mul_self m (Nat.mul_pos hden hunitNum)

/-- The place of the unit is found from the value: a significand has its leading bit unless the unit
is the least one. -/
theorem place_scaled {m : Nat} {place : Int} (hnum : 0 < (scaled m 2 place).num)
    (hm : m < 2 * leadingBit) (hplace : leastPlace ≤ place)
    (hlead : leadingBit ≤ m ∨ place = leastPlace) :
    max ((scaled m 2 place).binaryExponent - 52) leastPlace = place := by
  have hden := den_scaled_pos m Nat.two_pos place
  have hvalue := toRat_scaled m Nat.two_pos place
  push_cast at hvalue
  have hhigh : (scaled m 2 place).binaryExponent < place + 53 := by
    rw [binaryExponent_eq_log hnum hden, ← not_le, le_log_iff hnum hden, not_le, hvalue]
    have hm : (m : ℚ) < 2 ^ (53 : Int) := by
      have hcast : (m : ℚ) < (2 * leadingBit : Nat) := by exact_mod_cast hm
      exact hcast.trans_le (by norm_num [leadingBit])
    rw [zpow_add₀ (by norm_num), mul_comm]
    gcongr
  rcases hlead with hlead | rfl
  · have hlow : place + 52 ≤ (scaled m 2 place).binaryExponent := by
      rw [binaryExponent_eq_log hnum hden, le_log_iff hnum hden, hvalue]
      have hm : (2 : ℚ) ^ (52 : Int) ≤ m := by
        have hcast : ((leadingBit : Nat) : ℚ) ≤ m := by exact_mod_cast hlead
        exact le_trans (by norm_num [leadingBit]) hcast
      rw [zpow_add₀ (by norm_num), mul_comm]
      gcongr
    omega
  · omega

/-- A number of units is rounded to itself if it is a significand, with its leading bit unless the
unit is the least one. -/
theorem nearestBits_scaled {m : Nat} {place : Int} (hm : m < 2 * leadingBit)
    (hplace : leastPlace ≤ place) (hlead : leadingBit ≤ m ∨ place = leastPlace) :
    nearestBits (scaled m 2 place) =
      min ((place - leastPlace).toNat * leadingBit + m) 0x7ff0000000000000 := by
  by_cases hzero : (scaled m 2 place).num = 0
  · have hm0 : m = 0 := by
      have hvalue := toRat_scaled m Nat.two_pos place
      push_cast at hvalue
      rw [toRat, hzero, Nat.cast_zero, zero_div] at hvalue
      exact_mod_cast (mul_eq_zero.1 hvalue.symm).resolve_right (zpow_pos (by norm_num) place).ne'
    have hleast : place = leastPlace := hlead.resolve_left (by simp [hm0, leadingBit])
    rw [nearestBits, if_pos hzero, hm0, hleast]
    simp
  · rw [nearestBits, if_neg hzero]
    simp only [place_scaled (Nat.pos_of_ne_zero hzero) hm hplace hlead, roundHalfEven_scaled]

theorem den_exact_pos (x : Double) : 0 < x.exact.den := by
  rw [exact]
  split
  · exact den_scaled_pos _ (by decide) _
  · exact den_scaled_pos _ (by decide) _

/-- A finite double is the one nearest to its exact value. -/
theorem nearestBits_exact {x : Double} (hx : x.isFinite) :
    nearestBits x.exact = x.magnitude.toNat := by
  have hmag : x.magnitude.toNat < 0x7ff0000000000000 := by
    rw [isFinite, decide_eq_true_iff, UInt64.lt_iff_toNat_lt] at hx
    exact hx
  have hsplit := Nat.div_add_mod x.magnitude.toNat leadingBit
  have hfraction := Nat.mod_lt x.magnitude.toNat (show 0 < leadingBit by decide)
  rw [exact]
  generalize x.magnitude.toNat / leadingBit = field at hsplit ⊢
  generalize x.magnitude.toNat % leadingBit = fraction at hsplit hfraction ⊢
  rw [leadingBit] at hsplit hfraction
  split
  · next hfield =>
    subst hfield
    rw [nearestBits_scaled (by rw [leadingBit]; omega) le_rfl (Or.inr rfl), sub_self]
    simp only [Int.toNat_zero, Nat.zero_mul]
    omega
  · next hfield =>
    have hplace : ((field : Int) - 1 + leastPlace - leastPlace).toNat = field - 1 := by omega
    rw [nearestBits_scaled (by rw [leadingBit]; omega) (by omega) (Or.inl (Nat.le_add_right _ _)),
      hplace, leadingBit]
    have hmul : (field - 1) * 0x10000000000000 + 0x10000000000000 = field * 0x10000000000000 := by
      omega
    omega

end Double

end SharedExpr

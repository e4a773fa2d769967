import Mathlib
import SharedExpr.Proofs.Double.Shortest

/-! The text of a finite double with three places is read as the number of thousandths nearest to
its exact value. -/
namespace SharedExpr

section Rounding

variable (num : Nat) {den : Nat}

/-- A quotient is rounded by what is left of it above its whole part. -/
theorem exists_roundHalfEven_eq (h : 0 < den) :
    ∃ (q : Nat) (rest : ℚ), (num : ℚ) / den = q + rest ∧ 0 ≤ rest ∧ rest < 1 ∧
      roundHalfEven num den =
        if rest < 1 / 2 then q else if 1 / 2 < rest then q + 1 else q + q % 2 := by
  have hden : (0 : ℚ) < den := by exact_mod_cast h
  have hmod : ((num % den : Nat) : ℚ) < den := by exact_mod_cast Nat.mod_lt num h
  have hbelow : ((num % den : Nat) : ℚ) / den < 1 / 2 ↔ 2 * (num % den) < den := by
    rw [div_lt_div_iff₀ hden two_pos, mul_comm, one_mul]
    exact_mod_cast Iff.rfl
  have habove : 1 / 2 < ((num % den : Nat) : ℚ) / den ↔ den < 2 * (num % den) := by
    rw [div_lt_div_iff₀ two_pos hden, one_mul, mul_comm]
    exact_mod_cast Iff.rfl
  refine ⟨num / den, (num % den : Nat) / den, ?_, by positivity, (div_lt_one hden).2 hmod, ?_⟩
  · have hsplit : (num : ℚ) = (num / den : Nat) * den + (num % den : Nat) := by
      exact_mod_cast (Nat.div_add_mod' num den).symm
    rw [hsplit, add_div, mul_div_cancel_right₀ _ hden.ne']
  · simp only [roundHalfEven, hbelow, habove]

/-- The rounded quotient is off by a half at most. -/
theorem roundHalfEven_error (h : 0 < den) :
    |(roundHalfEven num den : ℚ) - num / den| ≤ 1 / 2 := by
  obtain ⟨q, rest, hvalue, hnonneg, hlt, hround⟩ := exists_roundHalfEven_eq num h
  rw [hround, hvalue, abs_le]
  have hparity : ((q % 2 : Nat) : ℚ) ≤ 1 := by
    exact_mod_cast Nat.le_of_lt_succ (Nat.mod_lt q two_pos)
  have hparity' : (0 : ℚ) ≤ (q % 2 : Nat) := Nat.cast_nonneg _
  split_ifs <;> push_cast <;> constructor <;> linarith

theorem even_roundHalfEven (h : 0 < den)
    (hhalf : |(roundHalfEven num den : ℚ) - num / den| = 1 / 2) :
    Even (roundHalfEven num den) := by
  obtain ⟨q, rest, hvalue, hnonneg, hlt, hround⟩ := exists_roundHalfEven_eq num h
  rw [hround, hvalue] at hhalf
  rw [hround]
  split_ifs at hhalf ⊢ with hbelow habove
  · rw [sub_add_cancel_left, abs_neg, abs_of_nonneg hnonneg] at hhalf
    exact absurd hhalf hbelow.ne
  · push_cast at hhalf
    rw [add_sub_add_left_eq_sub, abs_of_pos (sub_pos.2 hlt)] at hhalf
    linarith
  · exact Nat.even_iff.2 (by omega)

theorem roundHalfEven_nearest (h : 0 < den) (k : Nat) :
    |(roundHalfEven num den : ℚ) - num / den| ≤ |(k : ℚ) - num / den| := by
  have herror := roundHalfEven_error num h
  by_cases hk : roundHalfEven num den = k
  · rw [hk]
  have hapart : (1 : ℚ) ≤ |(roundHalfEven num den : ℚ) - k| := by
    have hne : (roundHalfEven num den : ℤ) - k ≠ 0 := by omega
    exact_mod_cast Int.one_le_abs hne
  have htriangle := abs_sub_le (roundHalfEven num den : ℚ) (num / den) k
  rw [abs_sub_comm (num / den : ℚ)] at htriangle
  linarith

end Rounding

namespace Decimal

theorem count_concat_digitChar (ds : List Char) {k : Nat} (hk : k < 10) :
    count (ds ++ [Nat.digitChar k]) = 10 * count ds + k := by
  have hdigit : ∀ k < 10, (Nat.digitChar k).toNat - '0'.toNat = k := by decide
  rw [count, List.foldl_append]
  exact congrArg _ (hdigit k hk)

/-- A number below a thousand has its three digits behind the one of a thousand. -/
theorem drop_toDigits {r : Nat} (hr : r < 1000) :
    (Nat.toDigits 10 (1000 + r)).drop 1 =
      [Nat.digitChar (r / 100), Nat.digitChar (r / 10 % 10), Nat.digitChar (r % 10)] := by
  rw [Nat.toDigits_of_base_le (by decide) (by omega),
    Nat.toDigits_of_base_le (by decide) (by omega), Nat.toDigits_of_base_le (by decide) (by omega),
    Nat.toDigits_of_lt_base (by omega)]
  have hhundreds : (1000 + r) / 10 / 10 % 10 = r / 100 := by omega
  have htens : (1000 + r) / 10 % 10 = r / 10 % 10 := by omega
  have hones : (1000 + r) % 10 = r % 10 := by omega
  rw [hhundreds, htens, hones]
  rfl

theorem count_thousandths (n : Nat) :
    count (Nat.toDigits 10 (n / 1000) ++ (Nat.toDigits 10 (1000 + n % 1000)).drop 1) = n := by
  rw [drop_toDigits (Nat.mod_lt n (by decide))]
  have hconcat : ∀ (ds : List Char) (a b c : Char), ds ++ [a, b, c] = ds ++ [a] ++ [b] ++ [c] := by
    simp
  rw [hconcat, count_concat_digitChar _ (by omega), count_concat_digitChar _ (by omega),
    count_concat_digitChar _ (by omega), count_toDigits]
  omega

end Decimal

namespace Double

variable {x : Double}

/-- The thousandths that the text shows. -/
def thousandths (x : Double) : Nat :=
  roundHalfEven (x.exact.num * 1000) x.exact.den

theorem toList_places (hx : x.isFinite) :
    x.places.toList = (if x.negative then ['-'] else []) ++
      (Nat.toDigits 10 (x.thousandths / 1000) ++
        '.' :: (Nat.toDigits 10 (1000 + x.thousandths % 1000)).drop 1) := by
  obtain ⟨hnan, hinfinite⟩ := x.isFinite_iff.1 hx
  rw [places, hnan, hinfinite, thousandths]
  cases x.negative <;> simp [toString, Nat.toList_repr]

theorem read?_places (hx : x.isFinite) :
    ∃ cs, x.places.toList = (if x.negative then ['-'] else []) ++ cs ∧
      Decimal.read? cs = some ⟨x.thousandths, -3⟩ := by
  refine ⟨_, toList_places hx, ?_⟩
  have hlt : x.thousandths % 1000 < 1000 := Nat.mod_lt _ (by decide)
  have hdigits : ∀ n, ∀ c ∈ Nat.toDigits 10 n, c.isDigit := fun n c hc =>
    Nat.isDigit_of_mem_toDigits (by decide) (by decide) hc
  rw [Decimal.read?_point (hdigits _) (fun c hc => hdigits _ c (List.mem_of_mem_drop hc))
    Nat.toDigits_ne_nil, Decimal.count_thousandths, Decimal.drop_toDigits hlt]
  rfl

/-- The text of a finite double with three places shows its sign and the decimal with three places
that is nearest to its exact value, the even one of two that are equally near. -/
theorem places_nearest (hx : x.isFinite) :
    ∃ cs d, x.places.toList = (if x.negative then ['-'] else []) ++ cs ∧
      Decimal.read? cs = some d ∧ d.place = -3 ∧
      (∀ d' : Decimal, d'.place = -3 →
        |d.value.toRat - x.exact.toRat| ≤ |d'.value.toRat - x.exact.toRat|) ∧
      |d.value.toRat - x.exact.toRat| ≤ 1 / 2000 ∧
      (|d.value.toRat - x.exact.toRat| = 1 / 2000 → Even d.coefficient) := by
  obtain ⟨cs, hcs, hread⟩ := read?_places hx
  have hden := den_exact_pos x
  -- Distances in thousandths are those of the quotient that is rounded.
  have hdistance : ∀ n : Nat, |(⟨n, -3⟩ : Decimal).value.toRat - x.exact.toRat| =
      |(n : ℚ) - (x.exact.num * 1000 : Nat) / x.exact.den| / 1000 := by
    intro n
    rw [Decimal.toRat_value, Fraction.toRat, ← abs_of_pos (show (0 : ℚ) < 1000 by norm_num),
      ← abs_div]
    congr 1
    push_cast
    ring
  have herror : |(x.thousandths : ℚ) - (x.exact.num * 1000 : Nat) / x.exact.den| ≤ 1 / 2 :=
    roundHalfEven_error _ hden
  refine ⟨cs, _, hcs, hread, rfl, ?_, ?_, fun hhalf => ?_⟩
  · rintro ⟨n, place⟩ rfl
    rw [hdistance, hdistance]
    exact div_le_div_of_nonneg_right (roundHalfEven_nearest _ hden n) (by norm_num)
  · rw [hdistance]
    linarith
  · rw [hdistance] at hhalf
    exact even_roundHalfEven _ hden (show |(x.thousandths : ℚ) - _| = _ by linarith)

end Double

end SharedExpr

import Mathlib
import MiniLisp.Proofs.Doubles

/-!
# Rounding to the nearest double

A quotient of naturals is scaled by the power of two that leaves it 53 bits before the point, or fewer if the exponent
is the least one, and rounded there. No double is nearer to the quotient than the outcome (`Double.Nearest`): a double
is a multiple of that power of two, among which the rounded one is nearest, or smaller than all numbers of 53 bits.

* `Decimal.nearestBits_rounded`: the bits of a rounded quotient.
* `Double.nearest_ofSignedBits`: the double with these bits is the nearest one.
* `Double.Nearest.unique`: there is one nearest double.
* `Double.nearest_toFloat`: an integer of 64 bits is converted to it.
-/

namespace MiniLisp

/-! ## Quotients of naturals -/

namespace Decimal

variable {num den : Nat}

/-- No integer is nearer to a quotient than the one it is rounded to, which is even if another is as near. -/
theorem roundHalfEven_nearest (pos : 0 < den) (j : Int) :
    |(roundHalfEven num den : Int) * den - num| < |j * den - num| ∨
      |(roundHalfEven num den : Int) * den - num| = |j * den - num| ∧
        (j = roundHalfEven num den ∨ roundHalfEven num den % 2 = 0) := by
  have split : (num : Int) = (num / den : Nat) * den + (num % den : Nat) := by
    exact_mod_cast (Nat.div_add_mod' num den).symm
  have small : num % den < den := Nat.mod_lt num pos
  unfold roundHalfEven
  rw [split]
  generalize num / den = q at *
  generalize num % den = r at *
  -- Distances are counted from the quotient rounded down, beyond whose neighbours every integer is too far.
  have dist (i : Int) : i * den - (q * den + r) = (i - q) * den - r := by ring
  have below {i : Int} (h : i ≤ -1) : i * den ≤ -den := by nlinarith
  have above {i : Int} (h : 2 ≤ i) : 2 * (den : Int) ≤ i * den := by nlinarith
  rw [dist, dist]
  obtain ⟨i, rfl⟩ : ∃ i : Int, j = i + q := ⟨j - q, by ring⟩
  have cases : i * den ≤ -den ∨ i = 0 ∨ i = 1 ∨ 2 * (den : Int) ≤ i * den := by
    rcases (by omega : i ≤ -1 ∨ i = 0 ∨ i = 1 ∨ 2 ≤ i) with h | h | h | h
    · exact .inl (below h)
    · exact .inr (.inl h)
    · exact .inr (.inr (.inl h))
    · exact .inr (.inr (.inr (above h)))
  simp only [Int.abs_eq_natAbs, add_sub_cancel_right]
  split
  · next down =>
    rw [sub_self, zero_mul]
    simp only [Bool.or_eq_true, Bool.and_eq_true, decide_eq_true_eq] at down
    rcases cases with h | rfl | rfl | h <;> omega
  · next up =>
    have one : ((q + 1 : Nat) : Int) - q = 1 := by omega
    rw [one, one_mul]
    simp only [Bool.or_eq_true, Bool.and_eq_true, decide_eq_true_eq] at up
    rcases cases with h | rfl | rfl | h <;> omega

theorem roundHalfEven_bounds (num den : Nat) :
    num / den ≤ roundHalfEven num den ∧ roundHalfEven num den ≤ num / den + 1 := by
  unfold roundHalfEven
  dsimp only
  split <;> omega

/-- A mantissa and an exponent as near to a positive number as they can be. The mantissa may have become too large by
being rounded up. -/
structure Rounded (c : ℚ) (e : Int) (q : Nat) : Prop where
  ge : -1074 ≤ e
  le : q ≤ 2 ^ 53
  normal : e = -1074 ∨ 2 ^ 52 ≤ q ∧ 2 ^ 52 * 2 ^ e ≤ c
  nearest (j : Int) :
    |q * 2 ^ e - c| < |j * 2 ^ e - c| ∨ |q * 2 ^ e - c| = |j * 2 ^ e - c| ∧ (j = q ∨ q % 2 = 0)

theorem scaled_spec (num : Nat) (pos : 0 < den) (e : Int) :
    0 < (scaled num den e).2 ∧ ((scaled num den e).1 : ℚ) * 2 ^ e = num / den * (scaled num den e).2 := by
  have hden : (den : ℚ) ≠ 0 := by exact_mod_cast pos.ne'
  have exponent : (2 : ℚ) ^ (-e).toNat * 2 ^ e = 2 ^ e.toNat := by
    rw [two_pow_mul, ← zpow_natCast]
    congr 1
    omega
  rw [scaled, twoTo_eq, twoTo_eq]
  refine ⟨by positivity, ?_⟩
  push_cast
  rw [mul_assoc, exponent]
  field_simp

theorem rounded_roundHalfEven {c : ℚ} {e : Int} {n d : Nat} (pos : 0 < d) (h : (n : ℚ) * 2 ^ e = c * d)
    (ge : -1074 ≤ e) (lt : c < 2 ^ 53 * 2 ^ e) (normal : e = -1074 ∨ 2 ^ 52 * 2 ^ e ≤ c) :
    Rounded c e (roundHalfEven n d) := by
  have hd : (0 : ℚ) < d := by exact_mod_cast pos
  have he : (0 : ℚ) < 2 ^ e := by positivity
  have dist (j : Int) : |j * 2 ^ e - c| = ((|j * d - n| : Int) : ℚ) * (2 ^ e / d) := by
    push_cast
    rw [← abs_of_pos (div_pos he hd), ← abs_mul]
    congr 1
    field_simp
    linarith
  obtain ⟨least, most⟩ := roundHalfEven_bounds n d
  refine ⟨ge, ?_, normal.imp_right fun large => ⟨?_, large⟩, fun j => ?_⟩
  · have below : n / d < 2 ^ 53 := by
      rw [Nat.div_lt_iff_lt_mul pos]
      have : (n : ℚ) * 2 ^ e < 2 ^ 53 * d * 2 ^ e := by
        rw [h]
        nlinarith
      exact_mod_cast lt_of_mul_lt_mul_right this he.le
    omega
  · refine le_trans ?_ least
    rw [Nat.le_div_iff_mul_le pos]
    have : (2 : ℚ) ^ 52 * d * 2 ^ e ≤ n * 2 ^ e := by
      rw [h]
      nlinarith
    exact_mod_cast le_of_mul_le_mul_right this he
  · have casted := dist (roundHalfEven n d)
    rw [Int.cast_natCast] at casted
    rw [casted, dist j]
    have unit : (0 : ℚ) < 2 ^ e / d := by positivity
    refine (roundHalfEven_nearest pos j).imp (fun nearer => ?_) (And.imp_left fun same => by rw [same])
    gcongr

/-- The binary logarithms of two naturals tell their quotient up to a factor of four. -/
theorem div_bounds (hn : 0 < num) (hd : 0 < den) :
    (2 : ℚ) ^ ((num.log2 : Int) - den.log2 - 1) ≤ num / den ∧
      (num : ℚ) / den < 2 ^ ((num.log2 : Int) - den.log2 + 1) := by
  have numLeast : (2 : ℚ) ^ num.log2 ≤ num := by exact_mod_cast Nat.log2_self_le hn.ne'
  have numMost : (num : ℚ) < 2 ^ (num.log2 + 1) := by exact_mod_cast Nat.lt_log2_self
  have denLeast : (2 : ℚ) ^ den.log2 ≤ den := by exact_mod_cast Nat.log2_self_le hd.ne'
  have denMost : (den : ℚ) ≤ 2 ^ (den.log2 + 1) := by exact_mod_cast Nat.lt_log2_self.le
  have pos : (0 : ℚ) < den := by exact_mod_cast hd
  have power (a b : Nat) : (2 : ℚ) ^ a / 2 ^ b = 2 ^ ((a : Int) - b) := by
    rw [zpow_sub₀ two_ne_zero, zpow_natCast, zpow_natCast]
  constructor
  · calc (2 : ℚ) ^ ((num.log2 : Int) - den.log2 - 1) = 2 ^ num.log2 / 2 ^ (den.log2 + 1) := by
          rw [power, Nat.cast_succ, sub_sub]
      _ ≤ num / den := by gcongr
  · calc (num : ℚ) / den < 2 ^ (num.log2 + 1) / 2 ^ den.log2 := by gcongr
      _ = 2 ^ ((num.log2 : Int) - den.log2 + 1) := by
          rw [power, Nat.cast_succ, add_sub_right_comm]

/-- The exponent is chosen so that the mantissa has 53 bits, or fewer if the exponent is the least one. -/
theorem nearestBits_rounded (hn : 0 < num) (hd : 0 < den) :
    ∃ e q, Rounded (num / den) e q ∧ nearestBits num den = min infinityBits ((e + 1074).toNat * 2 ^ 52 + q) := by
  obtain ⟨low, high⟩ := div_bounds hn hd
  unfold nearestBits
  rw [twoTo_eq, twoTo_eq]
  dsimp only
  generalize hg : max (-1074) ((num.log2 : Int) - den.log2 - 53) = guess
  obtain ⟨posDen, ratio⟩ := scaled_spec num hd guess
  have fits : (scaled num den guess).1 / (scaled num den guess).2 < 2 ^ 53 ↔
      (num : ℚ) / den < 2 ^ (guess + (53 : Nat)) := by
    have hs : (0 : ℚ) < (scaled num den guess).2 := by exact_mod_cast posDen
    have he : (0 : ℚ) < 2 ^ guess := by positivity
    rw [Nat.div_lt_iff_lt_mul posDen, ← two_pow_mul 53, ← mul_lt_mul_iff_left₀ hs, ← ratio, mul_right_comm,
      mul_lt_mul_iff_left₀ he]
    exact_mod_cast Iff.rfl
  have rounded {e : Int} (ge : -1074 ≤ e) (lt : (num : ℚ) / den < 2 ^ (e + (53 : Nat)))
      (normal : e = -1074 ∨ (2 : ℚ) ^ (e + (52 : Nat)) ≤ num / den) :
      Rounded (num / den) e (roundHalfEven (scaled num den e).1 (scaled num den e).2) :=
    rounded_roundHalfEven (scaled_spec num hd e).1 (scaled_spec num hd e).2 ge (by rwa [two_pow_mul 53])
      (by rwa [two_pow_mul 52])
  by_cases h : (scaled num den guess).1 / (scaled num den guess).2 < 2 ^ 53
  · refine ⟨guess, _, rounded (by omega) (fits.1 h) ?_, by rw [if_pos h]⟩
    rcases (by omega : guess = -1074 ∨ guess + (52 : Nat) = (num.log2 : Int) - den.log2 - 1) with least | exponent
    · exact .inl least
    · exact .inr (by rwa [exponent])
  · have large : (2 : ℚ) ^ (guess + 1 + (52 : Nat)) ≤ num / den := by
      rw [add_assoc]
      exact not_lt.1 (fits.not.1 h)
    refine ⟨guess + 1, _, rounded (by omega) (high.trans_le ?_) (.inr large), by rw [if_neg h]⟩
    exact zpow_le_zpow_right₀ one_le_two (by omega)

/-- Nothing that is a multiple of the last place, or below all mantissas of 53 bits, is nearer. -/
theorem Rounded.nearer {c v : ℚ} {e : Int} {q : Nat} (h : Rounded c e q)
    (hv : (∃ j : Int, v = j * 2 ^ e) ∨ -1074 < e ∧ |v| < 2 ^ 52 * 2 ^ e) :
    |q * 2 ^ e - c| < |v - c| ∨ |q * 2 ^ e - c| = |v - c| ∧ (v = q * 2 ^ e ∨ q % 2 = 0) := by
  rcases hv with ⟨j, rfl⟩ | ⟨notLeast, below⟩
  · exact (h.nearest j).imp_right (And.imp_right (Or.imp_left fun same => by rw [same, Int.cast_natCast]))
  · obtain ⟨-, large⟩ := h.normal.resolve_left notLeast.ne'
    have first : |q * 2 ^ e - c| ≤ |((2 ^ 52 : Int) : ℚ) * 2 ^ e - c| :=
      (h.nearest (2 ^ 52)).elim le_of_lt fun tie => tie.1.le
    refine .inl (first.trans_lt ?_)
    have vc : v < c := (le_abs_self v).trans_lt (below.trans_le large)
    push_cast
    rw [abs_of_nonpos (by linarith), abs_of_neg (by linarith)]
    linarith [le_abs_self v]

end Decimal

namespace Double

open Decimal (Rounded infinityBits infinityBits_eq twoTo two_pow_mul)

variable {x y : Float} {c : ℚ}

/-- A finite double that no other is nearer to a number than. If another is as near, the mantissa is even. -/
structure Nearest (x : Float) (c : ℚ) : Prop where
  finite : x.isFinite = true
  nearest (y : Float) (hy : y.isFinite = true) : |value x - c| ≤ |value y - c|
  even (y : Float) (hy : y.isFinite = true) (tie : |value y - c| = |value x - c|) :
    value y = value x ∨ mantissa x % 2 = 0

theorem abs_signed (negative : Bool) (a : ℚ) : |signed negative a| = |a| := by
  cases negative with
  | false => rfl
  | true => exact abs_neg a

/-- A double that is no multiple of some power of two is smaller than all mantissas of 53 bits with that power. -/
theorem multiple_or_below (hx : x.isFinite = true) (e : Int) :
    (∃ j : Int, value x = j * 2 ^ e) ∨ -1074 < e ∧ |value x| < 2 ^ 52 * 2 ^ e := by
  obtain ⟨negative, m, f, canonical, same, -⟩ := exists_canonical hx
  rw [same]
  rcases le_or_gt e f with le | lt
  · have exponent : (2 : ℚ) ^ f = 2 ^ (f - e).toNat * 2 ^ e := by
      rw [two_pow_mul]
      congr 1
      omega
    left
    rw [exponent, ← mul_assoc]
    cases negative with
    | false => exact ⟨m * 2 ^ (f - e).toNat, by simp [signed]⟩
    | true => exact ⟨-(m * 2 ^ (f - e).toNat), by simp [signed]⟩
  · refine .inr ⟨canonical.ge.trans_lt lt, ?_⟩
    rw [abs_signed, abs_of_nonneg (by positivity)]
    exact canonical.lt_of_lt lt

theorem abs_signed_sub (negative : Bool) (a b : ℚ) : |signed negative a - b| = |a - signed negative b| := by
  cases negative with
  | false => rfl
  | true =>
    simp only [signed, if_true]
    rw [← abs_neg]
    congr 1
    ring

theorem signed_signed (negative : Bool) (a : ℚ) : signed negative (signed negative a) = a := by
  cases negative <;> simp [signed]

/-- The double with a rounded mantissa is the nearest one, unless it is beyond all of them. -/
theorem nearest_ofSignedBits {e : Int} {q : Nat} (h : Rounded c e q)
    (finite : (e + 1074).toNat * 2 ^ 52 + q < infinityBits) (negative : Bool) :
    Nearest (ofSignedBits negative ((e + 1074).toNat * 2 ^ 52 + q)) (signed negative c) := by
  obtain ⟨isFinite, hvalue, hmantissa⟩ := ofSignedBits_spec negative finite
  obtain ⟨sameValue, sameParity⟩ := Decimal.Binary.ofBits_add h.ge h.le (h.normal.imp_right And.left) finite
  rw [sameValue] at hvalue
  rw [← hmantissa] at sameParity
  have nearer (y : Float) (hy : y.isFinite = true) := h.nearer (v := signed negative (value y)) (by
    rcases multiple_or_below hy e with ⟨j, hj⟩ | ⟨notLeast, below⟩
    · refine .inl ?_
      cases negative with
      | false => exact ⟨j, hj⟩
      | true => exact ⟨-j, by simp [signed, hj]⟩
    · refine .inr ⟨notLeast, ?_⟩
      rwa [abs_signed])
  simp only [abs_signed_sub] at nearer
  have dist :
      |value (ofSignedBits negative ((e + 1074).toNat * 2 ^ 52 + q)) - signed negative c| = |q * 2 ^ e - c| := by
    rw [hvalue, abs_signed_sub, signed_signed]
  refine ⟨isFinite, fun y hy => ?_, fun y hy tie => ?_⟩ <;> rw [dist] at *
  · exact (nearer y hy).elim le_of_lt fun tie => tie.1.le
  · refine ((nearer y hy).resolve_left tie.not_gt).2.imp (fun same => ?_) fun even => by omega
    rw [hvalue, ← same, signed_signed]

/-! ## There is one nearest double -/

/-- Between two numbers with even mantissas there is one with an odd mantissa. -/
theorem exists_odd_between {m n : Nat} {e f : Int} (hm : Canonical m e) (hn : Canonical n f) (even : m % 2 = 0)
    (even' : n % 2 = 0) (lt : (m : ℚ) * 2 ^ e < n * 2 ^ f) :
    ∃ k, Canonical k e ∧ (m : ℚ) * 2 ^ e < k * 2 ^ e ∧ (k : ℚ) * 2 ^ e < n * 2 ^ f := by
  have next : Canonical (m + 1) e :=
    ⟨by have := hm.lt; omega, hm.ge, hm.le, hm.normal.imp_right fun large => large.trans (Nat.le_succ m)⟩
  refine ⟨m + 1, next, ?_, ?_⟩
  · push_cast
    nlinarith [show (0 : ℚ) < 2 ^ e by positivity]
  · rw [← compare_lt_iff_lt, ← compare_canonical hm hn] at lt
    rw [← compare_lt_iff_lt, ← compare_canonical next hn]
    rcases lt_trichotomy e f with h | rfl | h
    · rw [compare_lt_iff_lt.2 h]
      rfl
    · rw [compare_eq_iff_eq.2 rfl] at lt ⊢
      have : m < n := compare_lt_iff_lt.1 lt
      exact compare_lt_iff_lt.2 (by omega : m + 1 < n)
    · rw [compare_gt_iff_gt.2 h] at lt
      cases lt

/-- Between two doubles with even mantissas there is another. -/
theorem exists_between (hx : x.isFinite = true) (hy : y.isFinite = true) (even : mantissa x % 2 = 0)
    (even' : mantissa y % 2 = 0) (lt : value x < value y) :
    ∃ z : Float, z.isFinite = true ∧ value x < value z ∧ value z < value y := by
  obtain ⟨s, m, e, hm, same, hmantissa⟩ := exists_canonical hx
  obtain ⟨t, n, f, hn, same', hmantissa'⟩ := exists_canonical hy
  rw [hmantissa] at even
  rw [hmantissa'] at even'
  have abs : |value x| = m * 2 ^ e := by rw [same, abs_signed, abs_of_nonneg (by positivity)]
  have abs' : |value y| = n * 2 ^ f := by rw [same', abs_signed, abs_of_nonneg (by positivity)]
  rcases le_or_gt 0 (value x) with nonneg | negative
  · rw [abs_of_nonneg nonneg] at abs
    rw [abs_of_nonneg (nonneg.trans lt.le)] at abs'
    rw [abs, abs'] at lt ⊢
    obtain ⟨k, canonical, above, below⟩ := exists_odd_between hm hn even even' lt
    obtain ⟨z, finite, hz⟩ := exists_value false canonical
    exact ⟨z, finite, above.trans_eq hz.symm, hz.trans_lt below⟩
  rcases le_or_gt (value y) 0 with nonpos | positive
  · rw [abs_of_nonpos negative.le, neg_eq_iff_eq_neg] at abs
    rw [abs_of_nonpos nonpos, neg_eq_iff_eq_neg] at abs'
    rw [abs, abs'] at lt ⊢
    obtain ⟨k, canonical, above, below⟩ := exists_odd_between hn hm even' even (neg_lt_neg_iff.1 lt)
    obtain ⟨z, finite, hz⟩ := exists_value true canonical
    exact ⟨z, finite, (neg_lt_neg below).trans_eq hz.symm, hz.trans_lt (neg_lt_neg above)⟩
  · obtain ⟨z, finite, hz⟩ := exists_value false canonical_zero
    have zero : value z = 0 := by rw [hz, signed, Nat.cast_zero, zero_mul]; rfl
    rw [← zero] at negative positive
    exact ⟨z, finite, negative, positive⟩

/-- If two doubles were as near, both mantissas would be even and a double between them nearer. -/
theorem not_nearest_of_lt (hx : Nearest x c) (hy : Nearest y c) : ¬value x < value y := fun lt => by
  have tie : |value x - c| = |value y - c| := le_antisymm (hx.nearest y hy.finite) (hy.nearest x hx.finite)
  have even := (hx.even y hy.finite tie.symm).resolve_left lt.ne'
  have even' := (hy.even x hx.finite tie).resolve_left lt.ne
  obtain ⟨z, finite, above, below⟩ := exists_between hx.finite hy.finite even even' lt
  have middle : value x + value y = 2 * c := by
    rcases abs_eq_abs.1 tie with same | opposite <;> linarith
  have far := hx.nearest z finite
  rw [abs_of_neg (by linarith)] at far
  exact absurd far (not_le.2 (abs_lt.2 ⟨by linarith, by linarith⟩))

theorem Nearest.unique (hx : Nearest x c) (hy : Nearest y c) : value x = value y :=
  le_antisymm (not_lt.1 (not_nearest_of_lt hy hx)) (not_lt.1 (not_nearest_of_lt hx hy))

theorem mantissa_eq (hx : x.isFinite = true) (hy : y.isFinite = true) (same : value x = value y) :
    mantissa x = mantissa y := by
  obtain ⟨s, m, e, hm, hvalue, hmantissa⟩ := exists_canonical hx
  obtain ⟨t, n, f, hn, hvalue', hmantissa'⟩ := exists_canonical hy
  have abs : (m : ℚ) * 2 ^ e = n * 2 ^ f := by
    have := congrArg abs same
    rwa [hvalue, hvalue', abs_signed, abs_signed, abs_of_nonneg (by positivity), abs_of_nonneg (by positivity)] at this
  rw [← compare_eq_iff_eq, ← compare_canonical hm hn, Ordering.then_eq_eq] at abs
  rw [hmantissa, hmantissa', compare_eq_iff_eq.1 abs.2]

theorem Nearest.congr (h : Nearest x c) (hy : y.isFinite = true) (same : value y = value x) : Nearest y c := by
  refine ⟨hy, ?_, ?_⟩ <;> rw [same]
  · exact h.nearest
  · rw [mantissa_eq hy h.finite same]
    exact h.even

/-! ## Integers of 64 bits -/

theorem natAbs_toInt_le (n : Int64) : n.toInt.natAbs ≤ 2 ^ 63 := by
  have := n.le_toInt
  have := n.toInt_lt
  omega

/-- Zero has no digits to be rounded. -/
theorem rounded_zero : Rounded 0 (-1074) 0 := by
  refine ⟨le_rfl, by norm_num, .inl rfl, fun j => ?_⟩
  rw [Nat.cast_zero, zero_mul, sub_zero, abs_zero]
  rcases eq_or_ne j 0 with rfl | hj
  · exact .inr ⟨by simp, .inl rfl⟩
  · exact .inl (abs_pos.2 (by simpa using hj))

/-- A natural number that is neither zero nor beyond every double has its quotient by one rounded. -/
theorem nearest_natural (negative : Bool) {d : Nat} (pos : 0 < d) (h : d < 10 ^ 20) :
    Decimal.nearest negative d 0 = ofSignedBits negative (Decimal.nearestBits d 1) := by
  have digits : Decimal.length d ≤ 20 := by
    rw [Decimal.length, if_neg pos.ne']
    exact Nat.toDigits_length 10 d 20 (by omega) h
  have notSmall : ¬(d = 0 || (Decimal.length d : Int) + 0 < -330) = true := by
    simp only [Bool.or_eq_true, decide_eq_true_eq]
    omega
  have notLarge : ¬310 < (Decimal.length d : Int) + 0 := by omega
  rw [Decimal.nearest]
  simp only [if_neg notSmall, if_neg notLarge]
  change Float.ofBits (UInt64.ofNat (if negative then twoTo 63 + Decimal.nearestBits (d * 1) 1
    else Decimal.nearestBits (d * 1) 1)) = _
  rw [mul_one, ofSignedBits]

/-- An integer of 64 bits is far from the largest double. -/
theorem toFloat_rounded (n : Int64) :
    ∃ e q, Rounded n.toInt.natAbs e q ∧ (e + 1074).toNat * 2 ^ 52 + q < infinityBits ∧
      (Number.int n).toFloat = ofSignedBits (n.toInt < 0) ((e + 1074).toNat * 2 ^ 52 + q) := by
  have abs_le := natAbs_toInt_le n
  rw [Number.toFloat]
  by_cases zero : n.toInt = 0
  · refine ⟨-1074, 0, ?_, by decide, ?_⟩
    · rw [zero]
      exact_mod_cast rounded_zero
    · rw [zero]
      rfl
  have pos : 0 < n.toInt.natAbs := Int.natAbs_pos.2 zero
  obtain ⟨e, q, rounded, bits⟩ := Decimal.nearestBits_rounded pos one_pos
  rw [Nat.cast_one, div_one] at rounded
  have exponent : e ≤ 11 := by
    rcases rounded.normal with least | ⟨-, large⟩
    · omega
    · rw [two_pow_mul] at large
      have : (2 : ℚ) ^ (e + (52 : Nat)) ≤ 2 ^ (63 : Int) := large.trans (by exact_mod_cast abs_le)
      have := (zpow_le_zpow_iff_right₀ one_lt_two).1 this
      omega
  have small : (e + 1074).toNat * 2 ^ 52 + q < infinityBits := by
    have := rounded.le
    rw [infinityBits_eq]
    omega
  refine ⟨e, q, rounded, small, ?_⟩
  rw [nearest_natural _ pos (by omega), bits, min_eq_right small.le]

theorem signed_abs (n : Int) : signed (n < 0) n.natAbs = n := by
  rw [Nat.cast_natAbs, Int.cast_abs]
  rcases lt_or_ge n 0 with negative | nonneg
  · rw [decide_eq_true negative, abs_of_neg (by exact_mod_cast negative)]
    exact neg_neg _
  · rw [decide_eq_false nonneg.not_gt, abs_of_nonneg (by exact_mod_cast nonneg)]
    rfl

/-- An integer of 64 bits is rounded to the nearest double. -/
theorem nearest_toFloat (n : Int64) : Nearest (Number.int n).toFloat n.toInt := by
  obtain ⟨e, q, rounded, small, same⟩ := toFloat_rounded n
  have nearest := nearest_ofSignedBits rounded small (n.toInt < 0)
  rwa [← same, signed_abs] at nearest

/-- Integers of 53 bits are doubles. -/
theorem value_toFloat {n : Int64} (h : n.toInt.natAbs ≤ 2 ^ 53) : value (Number.int n).toFloat = n.toInt := by
  obtain ⟨e, q, rounded, small, same⟩ := toFloat_rounded n
  have multiple : ∃ j : Int, (n.toInt.natAbs : ℚ) = j * 2 ^ e := by
    rcases le_or_gt e 0 with nonpos | pos
    · refine ⟨(n.toInt.natAbs * 2 ^ (-e).toNat : Nat), ?_⟩
      have exponent : (2 : ℚ) ^ (-e).toNat * 2 ^ e = 1 := by
        rw [two_pow_mul, ← zpow_zero 2]
        congr 1
        omega
      rw [Int.cast_natCast, Nat.cast_mul, Nat.cast_pow, Nat.cast_ofNat, mul_assoc, exponent, mul_one]
    · -- Only the largest of these integers needs a positive exponent.
      obtain ⟨-, large⟩ := rounded.normal.resolve_left (by omega)
      have abs_le : (n.toInt.natAbs : ℚ) ≤ 2 ^ 53 := by exact_mod_cast h
      have two : (2 : ℚ) ^ (1 : Int) ≤ 2 ^ e := zpow_le_zpow_right₀ one_le_two pos
      rw [zpow_one] at two
      refine ⟨2 ^ 52, ?_⟩
      push_cast
      linarith
  obtain ⟨finite, hvalue, -⟩ := ofSignedBits_spec (n.toInt < 0) small
  rw [same, hvalue, (Decimal.Binary.ofBits_add rounded.ge rounded.le (rounded.normal.imp_right And.left) small).1]
  obtain ⟨j, hj⟩ := multiple
  have exact : (q : ℚ) * 2 ^ e = n.toInt.natAbs := by
    have near := (rounded.nearest j).elim le_of_lt fun tie => tie.1.le
    rw [← hj, sub_self, abs_zero] at near
    exact sub_eq_zero.1 (abs_nonpos_iff.1 near)
  rw [exact, signed_abs]

end Double

end MiniLisp

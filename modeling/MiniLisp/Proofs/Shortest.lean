import MiniLisp.Decimal.Shortest
import MiniLisp.Proofs.Rounding

/-!
# The shortest decimal is rounded to its double

Around every double that is finite and not zero there is an interval of numbers that are rounded to it. A decimal in
it, however it is written, is rounded to that double (`Double.nearest_of_covers`), and the shortest decimal, which is
looked for with a test that it rounds to the double, is in it (`Decimal.shortest_covers`).

* `Binary.Covers`: the numbers in the interval of a double.
* `Rounded.unique`: the mantissa and the exponent of a number say one way to round it.
-/

namespace MiniLisp

namespace Decimal

open Double (Canonical)

/-! ## Intervals -/

theorem tenTo_eq (n : Nat) : tenTo n = 10 ^ n := rfl

/-- A power with a negative exponent made good for. -/
theorem pow_toNat_mul {a : ℚ} (ha : a ≠ 0) (e : Int) : a ^ (-e).toNat * a ^ e = a ^ e.toNat := by
  rw [← zpow_natCast, ← zpow_natCast, ← zpow_add₀ ha]
  congr 1
  omega

namespace Binary

/-- The numbers that are rounded to a binary number, as far as its mantissa goes: those that are nearer to it than to
its neighbours, and those halfway if the mantissa is even. -/
def Covers (b : Binary) (c : ℚ) : Prop :=
  let low : ℚ := (4 * b.mantissa - (if b.narrow then 1 else 2) : Nat) * 2 ^ b.exponent
  let high : ℚ := (4 * b.mantissa + 2 : Nat) * 2 ^ b.exponent
  if b.mantissa % 2 = 0 then low ≤ 4 * c ∧ 4 * c ≤ high else low < 4 * c ∧ 4 * c < high

variable {b : Binary} {u d : Nat} {t : Int}

/-- Both sides are freed of negative powers by the same factor. -/
theorem quarters_mul (b : Binary) (u d : Nat) (t : Int) :
    ((u * twoTo b.exponent.toNat * tenTo (-t).toNat : Nat) : ℚ) =
        (u * 2 ^ b.exponent) * (2 ^ (-b.exponent).toNat * 10 ^ (-t).toNat) ∧
      ((4 * d * tenTo t.toNat * twoTo (-b.exponent).toNat : Nat) : ℚ) =
        (4 * (d * 10 ^ t)) * (2 ^ (-b.exponent).toNat * 10 ^ (-t).toNat) := by
  have two := pow_toNat_mul (a := 2) two_ne_zero b.exponent
  have ten := pow_toNat_mul (a := 10) (by norm_num) t
  rw [twoTo_eq, twoTo_eq, tenTo_eq, tenTo_eq]
  push_cast
  rw [← two, ← ten]
  constructor <;> ring

theorem quartersLE_iff : b.quartersLE u d t = true ↔ (u : ℚ) * 2 ^ b.exponent ≤ 4 * (d * 10 ^ t) := by
  obtain ⟨left, right⟩ := quarters_mul b u d t
  rw [quartersLE, decide_eq_true_iff, ← Nat.cast_le (α := ℚ), left, right]
  exact mul_le_mul_iff_left₀ (by positivity)

theorem quartersGE_iff : b.quartersGE u d t = true ↔ 4 * (d * 10 ^ t) ≤ (u : ℚ) * 2 ^ b.exponent := by
  obtain ⟨left, right⟩ := quarters_mul b u d t
  rw [quartersGE, decide_eq_true_iff, ← Nat.cast_le (α := ℚ), left, right]
  exact mul_le_mul_iff_left₀ (by positivity)

/-- The test of a decimal tells whether it is in the interval. -/
theorem readsBack_iff : b.readsBack d t = true ↔ b.Covers (d * 10 ^ t) := by
  unfold readsBack Covers
  dsimp only
  split
  · rw [Bool.and_eq_true, quartersLE_iff, quartersGE_iff]
  · rw [Bool.and_eq_true, Bool.not_eq_true', Bool.not_eq_true', ← Bool.not_eq_true, ← Bool.not_eq_true,
      quartersGE_iff, quartersLE_iff, not_le, not_le]

theorem covers_value (b : Binary) : b.Covers b.value := by
  have unit : (0 : ℚ) < 2 ^ b.exponent := by positivity
  have quarters : 4 * b.value = (4 * b.mantissa : Nat) * 2 ^ b.exponent := by
    rw [value]
    push_cast
    ring
  unfold Covers
  dsimp only
  rw [quarters]
  split
  · constructor <;> gcongr <;> omega
  · refine ⟨mul_lt_mul_of_pos_right ?_ unit, mul_lt_mul_of_pos_right ?_ unit⟩ <;> norm_cast
    · split <;> omega
    · omega

/-- What is covered is half a unit in the last place away at most, and less below a narrow number. -/
theorem Covers.near {c : ℚ} (h : b.Covers c) :
    2 * |b.mantissa * 2 ^ b.exponent - c| < 2 ^ b.exponent ∨
      2 * |b.mantissa * 2 ^ b.exponent - c| = 2 ^ b.exponent ∧ b.mantissa % 2 = 0 := by
  have unit : (0 : ℚ) < 2 ^ b.exponent := by positivity
  have half : (4 * (b.mantissa : ℚ) - 2) * 2 ^ b.exponent ≤
      ((4 * b.mantissa - (if b.narrow then 1 else 2) : Nat) : ℚ) * 2 ^ b.exponent := by
    gcongr
    rw [sub_le_iff_le_add]
    norm_cast
    split <;> omega
  unfold Covers at h
  dsimp only at h
  push_cast at h
  split at h
  · next even =>
    refine (lt_or_eq_of_le ?_).imp_right fun tie => ⟨tie, even⟩
    rw [← le_div_iff₀' two_pos, abs_le]
    constructor <;> linarith [h.1, h.2]
  · left
    rw [← lt_div_iff₀' two_pos, abs_lt]
    constructor <;> linarith [h.1, h.2]

theorem Covers.half {c : ℚ} (h : b.Covers c) : |b.mantissa * 2 ^ b.exponent - c| ≤ 2 ^ b.exponent / 2 :=
  (le_div_iff₀' two_pos).2 (h.near.elim le_of_lt fun tie => tie.1.le)

/-- The parts of the bits of a finite double. -/
theorem ofBits_canonical {bits : Nat} (h : bits < infinityBits) :
    Canonical (ofBits bits).mantissa (ofBits bits).exponent ∧
      bits = ((ofBits bits).exponent + 1074).toNat * 2 ^ 52 + (ofBits bits).mantissa ∧
      ((ofBits bits).narrow = true ↔ (ofBits bits).mantissa = 2 ^ 52 ∧ -1074 < (ofBits bits).exponent) := by
  rw [infinityBits_eq] at h
  unfold ofBits
  dsimp only
  rw [twoTo_eq, twoTo_eq]
  split
  · next field =>
    refine ⟨⟨by dsimp only; omega, le_rfl, by norm_num, .inl rfl⟩, by dsimp only; omega, ?_⟩
    simp
  · next field =>
    have exponent : Int.ofNat (bits / 2 ^ 52 % 2 ^ 11) - 1075 = ((bits / 2 ^ 52 : Nat) : Int) - 1075 := by
      rw [Int.ofNat_eq_natCast]
      omega
    dsimp only
    rw [exponent]
    refine ⟨⟨by omega, by omega, by omega, .inr (by omega)⟩, by omega, ?_⟩
    simp only [Bool.and_eq_true, decide_eq_true_eq]
    omega

end Binary

/-! ## Rounding in one way -/

variable {c : ℚ} {e f : Int} {q r : Nat}

/-- A multiple of a power of two that is no more than half of it away is the nearest one. -/
theorem nearest_of_near (h : 2 * |q * 2 ^ e - c| < 2 ^ e ∨ 2 * |q * 2 ^ e - c| = 2 ^ e ∧ q % 2 = 0) (j : Int) :
    |q * 2 ^ e - c| < |j * 2 ^ e - c| ∨ |q * 2 ^ e - c| = |j * 2 ^ e - c| ∧ (j = q ∨ q % 2 = 0) := by
  by_cases same : j = q
  · rw [same]
    exact .inr ⟨by push_cast; rfl, .inl rfl⟩
  have unit : (0 : ℚ) < 2 ^ e := by positivity
  have apart : (2 : ℚ) ^ e ≤ |(j : ℚ) * 2 ^ e - q * 2 ^ e| := by
    rw [← sub_mul, abs_mul, abs_of_pos unit]
    refine le_mul_of_one_le_left unit.le ?_
    exact_mod_cast Int.one_le_abs (sub_ne_zero.2 same)
  have triangle : |(j : ℚ) * 2 ^ e - q * 2 ^ e| ≤ |j * 2 ^ e - c| + |q * 2 ^ e - c| := by
    rw [abs_sub_comm (q * 2 ^ e : ℚ) c]
    exact abs_sub_le _ _ _
  rcases h with less | ⟨half, even⟩
  · exact .inl (by linarith)
  · exact (by linarith : |q * 2 ^ e - c| ≤ |j * 2 ^ e - c|).lt_or_eq.imp_right fun tie => ⟨tie, .inr even⟩

theorem Rounded.half (h : Rounded c e q) : |q * 2 ^ e - c| ≤ 2 ^ e / 2 := by
  have unit : (0 : ℚ) < 2 ^ e := by positivity
  have above := (h.nearest (q + 1)).elim le_of_lt fun tie => tie.1.le
  have below := (h.nearest (q - 1)).elim le_of_lt fun tie => tie.1.le
  push_cast at above below
  rw [add_mul, one_mul, add_sub_right_comm] at above
  rw [sub_mul, one_mul, sub_right_comm] at below
  have left := sq_le_sq.2 above
  have right := sq_le_sq.2 below
  rw [abs_le]
  constructor <;> nlinarith

/-- Two mantissas that are both nearest would be neighbours and both even. -/
theorem Rounded.mantissa_unique (h : Rounded c e q) (h' : Rounded c e r) : q = r := by
  by_contra different
  have unit : (0 : ℚ) < 2 ^ e := by positivity
  obtain ⟨le, ge⟩ := abs_le.1 h.half
  obtain ⟨le', ge'⟩ := abs_le.1 h'.half
  have tie := h.nearest r
  have tie' := h'.nearest q
  push_cast at tie tie'
  have parity : q % 2 = 0 := ((tie.resolve_left (tie'.elim le_of_lt fun t => t.1.le).not_gt).2.resolve_left
    (by exact_mod_cast Ne.symm different))
  have parity' : r % 2 = 0 := ((tie'.resolve_left (tie.elim le_of_lt fun t => t.1.le).not_gt).2.resolve_left
    (by exact_mod_cast different))
  have upper : (q : ℚ) - r ≤ 1 := le_of_mul_le_mul_right (by linarith) unit
  have lower : (r : ℚ) - q ≤ 1 := le_of_mul_le_mul_right (by linarith) unit
  have upper : q ≤ r + 1 := by exact_mod_cast sub_le_iff_le_add'.1 upper
  have lower : r ≤ q + 1 := by exact_mod_cast sub_le_iff_le_add'.1 lower
  omega

/-- Mantissas with different exponents are both nearest only where the one is full and the other one begins. -/
theorem Rounded.boundary (h : Rounded c e q) (h' : Rounded c f r) (lt : e < f) :
    f = e + 1 ∧ q = 2 ^ 53 ∧ r = 2 ^ 52 := by
  obtain ⟨full, large⟩ := h'.normal.resolve_left (by have := h.ge; omega)
  have unit : (0 : ℚ) < 2 ^ e := by positivity
  obtain ⟨below, above⟩ := abs_le.1 h.half
  obtain ⟨-, above'⟩ := abs_le.1 h'.half
  have most : (q : ℚ) ≤ 2 ^ 53 := by exact_mod_cast h.le
  have next : f = e + 1 := by
    by_contra further
    have : (2 : ℚ) ^ (e + (2 : Nat)) ≤ 2 ^ f := zpow_le_zpow_right₀ one_le_two (by omega)
    rw [← two_pow_mul 2] at this
    nlinarith
  subst next
  rw [zpow_add_one₀ two_ne_zero] at large above'
  refine ⟨rfl, le_antisymm h.le ?_, le_antisymm ?_ full⟩
  · have : (2 : ℚ) ^ 53 - 1 < q := lt_of_mul_lt_mul_right (by linarith) unit.le
    exact Nat.le_of_lt_succ (by exact_mod_cast sub_lt_iff_lt_add.1 this)
  · have : (r : ℚ) < 2 ^ 52 + 1 := lt_of_mul_lt_mul_right (by nlinarith) unit.le
    exact Nat.le_of_lt_succ (by exact_mod_cast this)

/-- The bits that a number is rounded to are determined. -/
theorem Rounded.unique (h : Rounded c e q) (h' : Rounded c f r) :
    (e + 1074).toNat * 2 ^ 52 + q = (f + 1074).toNat * 2 ^ 52 + r := by
  have := h.ge
  have := h'.ge
  rcases lt_trichotomy e f with lt | rfl | lt
  · obtain ⟨rfl, rfl, rfl⟩ := h.boundary h' lt
    omega
  · rw [h.mantissa_unique h']
  · obtain ⟨rfl, rfl, rfl⟩ := h'.boundary h lt
    omega

/-! ## What is in the interval is rounded to the double -/

section

variable {bits : Nat} {num den : Nat}

/-- A number in the interval is rounded to the mantissa, or below a narrow number to the full one before it. -/
theorem Binary.Covers.rounded (hb : bits < infinityBits) (h : (Binary.ofBits bits).Covers c) :
    ∃ e q, Rounded c e q ∧ (e + 1074).toNat * 2 ^ 52 + q = bits := by
  obtain ⟨canonical, same, narrow⟩ := Binary.ofBits_canonical hb
  have near := h.near
  have half := h.half
  have quarter (hn : (Binary.ofBits bits).narrow = true) :
      (4 * (Binary.ofBits bits).mantissa - 1 : Nat) * 2 ^ (Binary.ofBits bits).exponent ≤ 4 * c := by
    unfold Binary.Covers at h
    simp only [hn, if_true] at h
    split at h
    · exact h.1
    · exact h.1.le
  generalize (Binary.ofBits bits).mantissa = m at *
  generalize (Binary.ofBits bits).exponent = e at *
  by_cases low : -1074 < e ∧ c < 2 ^ 52 * 2 ^ e
  · obtain ⟨least, below⟩ := low
    obtain ⟨-, above⟩ := abs_le.1 half
    have first : m = 2 ^ 52 := by
      have unit : (0 : ℚ) < 2 ^ e := by positivity
      have : (m : ℚ) < 2 ^ 52 + 1 := lt_of_mul_lt_mul_right (by linarith) unit.le
      exact le_antisymm (Nat.le_of_lt_succ (by exact_mod_cast this)) (canonical.normal.resolve_left least.ne')
    have next := quarter (narrow.2 ⟨first, least⟩)
    have double : (2 : ℚ) ^ e = 2 ^ (e - 1) * 2 := by rw [← zpow_add_one₀ two_ne_zero, sub_add_cancel]
    have unit : (0 : ℚ) < 2 ^ (e - 1) := by positivity
    rw [first] at next
    rw [double] at next below
    norm_num at next below
    refine ⟨e - 1, 2 ^ 53, ⟨by omega, le_rfl, .inr ⟨by norm_num, by linarith⟩, nearest_of_near ?_⟩, by omega⟩
    have full : 2 * |((2 ^ 53 : Nat) : ℚ) * 2 ^ (e - 1) - c| ≤ 2 ^ (e - 1) := by
      rw [← le_div_iff₀' two_pos, abs_le]
      push_cast
      constructor <;> linarith
    exact full.lt_or_eq.imp_right fun tie => ⟨tie, by norm_num⟩
  · refine ⟨e, m, ⟨canonical.ge, canonical.lt.le, ?_, nearest_of_near near⟩, same.symm⟩
    rcases canonical.ge.eq_or_lt with least | least
    · exact .inl least.symm
    · exact .inr ⟨canonical.normal.resolve_left least.ne', not_lt.1 fun below => low ⟨least, below⟩⟩

theorem nearestBits_of_covers (hn : 0 < num) (hd : 0 < den) (hb : bits < infinityBits)
    (h : (Binary.ofBits bits).Covers (num / den)) : nearestBits num den = bits := by
  obtain ⟨e, q, rounded, same⟩ := h.rounded hb
  obtain ⟨f, r, rounded', out⟩ := nearestBits_rounded hn hd
  rw [out, ← rounded.unique rounded', same, min_eq_right hb.le]

end

/-- Powers of ten around a decimal, by its number of digits and its exponent. -/
theorem magnitude_bounds {d : Nat} (pos : 0 < d) (t : Int) :
    (10 : ℚ) ^ ((length d : Int) + t - 1) ≤ d * 10 ^ t ∧ (d : ℚ) * 10 ^ t < 10 ^ ((length d : Int) + t) := by
  have ten : (0 : ℚ) < 10 ^ t := by positivity
  have count : 0 < length d := by
    rw [length, if_neg pos.ne']
    exact Nat.length_toDigits_pos
  have below : d < 10 ^ length d := by
    rw [← Nat.length_toDigits_le_iff (by norm_num) count, length, if_neg pos.ne']
    exact le_rfl
  have above : 10 ^ (length d - 1) ≤ d := by
    by_contra small
    rcases Nat.eq_zero_or_pos (length d - 1) with zero | more
    · rw [zero] at small
      omega
    · rw [not_le, ← Nat.length_toDigits_le_iff (by norm_num) more] at small
      have same : length d = (Nat.toDigits 10 d).length := by
        rw [length, if_neg pos.ne']
        rfl
      omega
  constructor
  · have split : (10 : ℚ) ^ ((length d : Int) + t - 1) = 10 ^ (length d - 1) * 10 ^ t := by
      rw [← zpow_natCast, ← zpow_add₀ (by norm_num)]
      congr 1
      omega
    rw [split]
    gcongr
    exact_mod_cast above
  · rw [zpow_add₀ (by norm_num), zpow_natCast]
    gcongr
    exact_mod_cast below

/-- Powers of two beyond the doubles, between powers of ten. -/
theorem two_pow_bounds : (10 : ℚ) ^ (-330 : Int) < 2 ^ (-1075 : Int) ∧ (2 : ℚ) ^ (1024 : Int) < 10 ^ (310 : Int) := by
  constructor
  · rw [zpow_neg, zpow_neg]
    refine inv_strictAnti₀ (by positivity) ?_
    calc (2 : ℚ) ^ (1075 : Int) = (2 ^ (215 : Nat)) ^ (5 : Nat) := by rw [← pow_mul]; rfl
      _ < (10 ^ (66 : Nat)) ^ (5 : Nat) := by gcongr; norm_num
      _ = 10 ^ (330 : Int) := by rw [← pow_mul]; rfl
  · calc (2 : ℚ) ^ (1024 : Int) ≤ 2 ^ (1025 : Int) := zpow_le_zpow_right₀ one_le_two (by norm_num)
      _ = (2 ^ (205 : Nat)) ^ (5 : Nat) := by rw [← pow_mul]; rfl
      _ < (10 ^ (62 : Nat)) ^ (5 : Nat) := by gcongr; norm_num
      _ = 10 ^ (310 : Int) := by rw [← pow_mul]; rfl

/-- A number in an interval is neither too small nor too large for a decimal to be rounded. -/
theorem Binary.Covers.bounds {bits : Nat} (pos : 0 < bits) (hb : bits < infinityBits)
    (h : (Binary.ofBits bits).Covers c) : (10 : ℚ) ^ (-330 : Int) < c ∧ c < 10 ^ (310 : Int) := by
  obtain ⟨canonical, same, -⟩ := Binary.ofBits_canonical hb
  have half := h.half
  generalize (Binary.ofBits bits).mantissa = m at *
  generalize (Binary.ofBits bits).exponent = e at *
  obtain ⟨below, above⟩ := abs_le.1 half
  have unit : (0 : ℚ) < 2 ^ e := by positivity
  constructor
  · have one : (1 : ℚ) ≤ m := by
      exact_mod_cast Nat.one_le_iff_ne_zero.2 fun zero => by
        have := canonical.normal
        subst zero
        omega
    calc (10 : ℚ) ^ (-330 : Int) < 2 ^ (-1075 : Int) := two_pow_bounds.1
      _ ≤ 2 ^ (e - 1) := zpow_le_zpow_right₀ one_le_two (by have := canonical.ge; omega)
      _ = 1 * 2 ^ e - 2 ^ e / 2 := by rw [zpow_sub_one₀ two_ne_zero]; ring
      _ ≤ m * 2 ^ e - 2 ^ e / 2 := by gcongr
      _ ≤ c := by linarith
  · have most : (m : ℚ) + 1 ≤ 2 ^ 53 := by exact_mod_cast canonical.lt
    calc c ≤ m * 2 ^ e + 2 ^ e / 2 := by linarith
      _ ≤ (m + 1) * 2 ^ e := by linarith
      _ ≤ 2 ^ 53 * 2 ^ e := by gcongr
      _ = 2 ^ (e + (53 : Nat)) := two_pow_mul 53 e
      _ ≤ 2 ^ (1024 : Int) := zpow_le_zpow_right₀ one_le_two (by have := canonical.le; omega)
      _ < 10 ^ (310 : Int) := two_pow_bounds.2

/-! ## The shortest decimal -/

/-- The number that a decimal is. -/
def Scientific.value (s : Scientific) : ℚ := s.digits * 10 ^ s.exponent

/-- Whatever multiple is taken has been tested. -/
theorem covers_neighbour? {b : Binary} {num den : Nat} {t : Int} {s : Scientific}
    (h : neighbour? b num den t = some s) : b.Covers s.value := by
  unfold neighbour? at h
  extract_lets n d low at h
  unfold Scientific.value
  split at h <;> cases h
  · next low high =>
    split
    · exact Binary.readsBack_iff.1 low
    · exact Binary.readsBack_iff.1 high
  · next low _ => exact Binary.readsBack_iff.1 low
  · next _ high => exact Binary.readsBack_iff.1 high

theorem value_expansion (b : Binary) : (expansion b).value = b.value := by
  rw [Scientific.value, expansion, Binary.value, twoTo_eq, Nat.pow_eq]
  push_cast
  rcases le_total 0 b.exponent with nonneg | nonpos
  · rw [min_eq_right nonneg, zpow_zero, mul_one, Int.toNat_eq_zero.2 (by omega : -b.exponent ≤ 0), pow_zero, mul_one,
      ← zpow_natCast, Int.toNat_of_nonneg nonneg]
  · have five := pow_toNat_mul (a := 5) (by norm_num) b.exponent
    rw [Int.toNat_eq_zero.2 nonpos, pow_zero] at five ⊢
    rw [min_eq_left nonpos, mul_one]
    calc (b.mantissa : ℚ) * 5 ^ (-b.exponent).toNat * 10 ^ b.exponent
        = b.mantissa * 5 ^ (-b.exponent).toNat * (2 * 5) ^ b.exponent := by norm_num
      _ = b.mantissa * 2 ^ b.exponent * (5 ^ (-b.exponent).toNat * 5 ^ b.exponent) := by
        rw [mul_zpow]
        ring
      _ = b.mantissa * 2 ^ b.exponent := by rw [five, mul_one]

theorem value_stripZeros (fuel : Nat) (s : Scientific) : (stripZeros fuel s).value = s.value := by
  induction fuel generalizing s with
  | zero => rfl
  | succ fuel ih =>
    rw [stripZeros]
    split
    · next zero =>
      have whole : s.digits / 10 * 10 = s.digits := Nat.div_mul_cancel (Nat.dvd_of_mod_eq_zero zero)
      rw [ih, Scientific.value, Scientific.value, zpow_add_one₀ (by norm_num), ← whole]
      push_cast
      rw [Nat.mul_div_cancel _ (by norm_num)]
      ring
    · rfl

/-- The shortest decimal of a double is in its interval. -/
theorem shortest_covers (b : Binary) : b.Covers (shortest b).value := by
  unfold shortest
  split
  extract_lets k found
  rw [value_stripZeros]
  cases hf : found with
  | none =>
    rw [Option.getD_none, value_expansion]
    exact b.covers_value
  | some s =>
    obtain ⟨n, -, hs⟩ := List.exists_of_findSome?_eq_some hf
    exact covers_neighbour? hs

end Decimal

namespace Double

open Decimal (Binary infinityBits)

/-- **Rounding.** A decimal in the interval of a double is rounded to it. -/
theorem nearest_of_covers (negative : Bool) {bits d : Nat} {t : Int} (pos : 0 < bits) (hb : bits < infinityBits)
    (h : (Binary.ofBits bits).Covers (d * 10 ^ t)) : Decimal.nearest negative d t = ofSignedBits negative bits := by
  obtain ⟨above, below⟩ := h.bounds pos hb
  have hd : 0 < d := by
    refine Nat.pos_of_ne_zero fun zero => ?_
    rw [zero, Nat.cast_zero, zero_mul] at above
    exact absurd above (zpow_pos (by norm_num) _).not_gt
  obtain ⟨least, most⟩ := Decimal.magnitude_bounds hd t
  have low := (zpow_lt_zpow_iff_right₀ (by norm_num)).1 (above.trans most)
  have high := (zpow_lt_zpow_iff_right₀ (by norm_num)).1 (least.trans_lt below)
  have notSmall : ¬(d = 0 || (Decimal.length d : Int) + t < -330) = true := by
    simp only [Bool.or_eq_true, decide_eq_true_eq]
    omega
  have notLarge : ¬310 < (Decimal.length d : Int) + t := by omega
  have quotient : ((d * Decimal.tenTo t.toNat : Nat) : ℚ) / (Decimal.tenTo (-t).toNat : Nat) = d * 10 ^ t := by
    rw [Decimal.tenTo_eq, Decimal.tenTo_eq]
    push_cast
    rw [div_eq_iff (by positivity), mul_assoc, mul_comm (10 ^ t : ℚ), Decimal.pow_toNat_mul (by norm_num)]
  rw [Decimal.nearest]
  simp only [if_neg notSmall, if_neg notLarge]
  have num : 0 < d * Decimal.tenTo t.toNat := Nat.mul_pos hd (Nat.pow_pos (by norm_num))
  have den : 0 < Decimal.tenTo (-t).toNat := Nat.pow_pos (by norm_num)
  rw [Decimal.nearestBits_of_covers num den hb (by rwa [quotient]), ofSignedBits]

end Double

end MiniLisp

import Mathlib
import MiniLisp.Value.Number

/-!
# Doubles as rational numbers

A finite double stands for a rational number, its mantissa times a power of two. Mantissa and exponent are canonical:
only the least exponent goes with fewer than 53 bits, so that a number with a greater exponent is greater.

* `Double.ofSignedBits_spec`: the double that given bits are.
* `Double.exists_canonical`, `Double.exists_value`: finite doubles are the canonical numbers with a sign.
* `Double.compare_eq`: finite doubles are compared as the numbers they stand for.
-/

namespace MiniLisp

namespace Decimal

theorem twoTo_eq (n : Nat) : twoTo n = 2 ^ n := rfl

theorem infinityBits_eq : infinityBits = 2047 * 2 ^ 52 := rfl

theorem two_pow_mul (k : Nat) (e : Int) : (2 : ℚ) ^ k * 2 ^ e = 2 ^ (e + k) := by
  rw [zpow_add₀ two_ne_zero, mul_comm, zpow_natCast]

namespace Binary

/-- The rational number that a binary one is. -/
def value (b : Binary) : ℚ := b.mantissa * 2 ^ b.exponent

/-- Bits are counted on through the exponents: each has room for as many mantissas, and the mantissa after the last
one is the first of the next exponent. -/
theorem ofBits_add {e : Int} {q : Nat} (ge : -1074 ≤ e) (le : q ≤ 2 ^ 53) (normal : e = -1074 ∨ 2 ^ 52 ≤ q)
    (h : (e + 1074).toNat * 2 ^ 52 + q < infinityBits) :
    (ofBits ((e + 1074).toNat * 2 ^ 52 + q)).value = q * 2 ^ e ∧
      (ofBits ((e + 1074).toNat * 2 ^ 52 + q)).mantissa % 2 = q % 2 := by
  obtain ⟨E, rfl⟩ : ∃ E : Nat, e = E - 1074 := ⟨(e + 1074).toNat, by omega⟩
  have same : ((E : Int) - 1074 + 1074).toNat = E := by omega
  rw [same] at h ⊢
  rw [infinityBits_eq] at h
  rw [ofBits, twoTo_eq, twoTo_eq, value]
  rcases Nat.lt_or_ge q (2 ^ 52) with small | large
  · obtain rfl : E = 0 := by omega
    have field : (0 * 2 ^ 52 + q) / 2 ^ 52 % 2 ^ 11 = 0 := by omega
    have fraction : (0 * 2 ^ 52 + q) % 2 ^ 52 = q := by omega
    rw [field, fraction]
    exact ⟨rfl, rfl⟩
  rcases Nat.lt_or_ge q (2 ^ 53) with below | top
  · have field : (E * 2 ^ 52 + q) / 2 ^ 52 % 2 ^ 11 = E + 1 := by omega
    have fraction : 2 ^ 52 + (E * 2 ^ 52 + q) % 2 ^ 52 = q := by omega
    have exponent : Int.ofNat (E + 1) - 1075 = E - 1074 := by
      rw [Int.ofNat_eq_natCast]
      omega
    rw [field, if_neg (Nat.succ_ne_zero E)]
    simp only [fraction, exponent, and_self]
  · obtain rfl : q = 2 ^ 53 := le_antisymm le top
    have field : (E * 2 ^ 52 + 2 ^ 53) / 2 ^ 52 % 2 ^ 11 = E + 2 := by omega
    have fraction : 2 ^ 52 + (E * 2 ^ 52 + 2 ^ 53) % 2 ^ 52 = 2 ^ 52 := by omega
    have exponent : Int.ofNat (E + 2) - 1075 = E - 1074 + 1 := by
      rw [Int.ofNat_eq_natCast]
      omega
    rw [field, if_neg (Nat.succ_ne_zero (E + 1))]
    simp only [fraction, exponent]
    refine ⟨?_, by norm_num⟩
    rw [zpow_add_one₀ two_ne_zero]
    push_cast
    ring

end Binary

end Decimal

namespace Double

open Decimal (Binary twoTo infinityBits twoTo_eq infinityBits_eq two_pow_mul)
open Float.Model (UnpackedFloat)
open Float.Model.UnpackedFloat (Sign packComponents)

/-! ## What a double stands for -/

/-- The rational number that an unpacked double stands for; zero if it stands for none. -/
def unpackedValue : UnpackedFloat → ℚ
  | .finite s m e _ => s.apply m * 2 ^ e
  | _ => 0

/-- The rational number that a double stands for; zero if it is infinite or not a number. -/
def value (x : Float) : ℚ := unpackedValue x.toModel.unpack

/-- The mantissa of a double that is finite and not zero. -/
def mantissa (x : Float) : Nat :=
  match x.toModel.unpack with
  | .finite _ m _ _ => m
  | _ => 0

/-- A number or its opposite. -/
def signed (negative : Bool) (c : ℚ) : ℚ := if negative then -c else c

theorem unpackedValue_positive (m : Nat) (e : Int) (h : 0 < m) :
    unpackedValue (.finite .positive m e h) = m * 2 ^ e := by simp [unpackedValue, Sign.apply]

theorem unpackedValue_negative (m : Nat) (e : Int) (h : 0 < m) :
    unpackedValue (.finite .negative m e h) = -(m * 2 ^ e) := by simp [unpackedValue, Sign.apply]

/-! ## The bits of a double -/

theorem toNat_append {n k : Nat} (a : BitVec n) (b : BitVec k) : (a ++ b).toNat = a.toNat * 2 ^ k + b.toNat := by
  rw [BitVec.toNat_append, Nat.shiftLeft_eq, Nat.mul_comm, Nat.two_pow_add_eq_or_of_lt b.isLt]

/-- The bits of the parts of a double. -/
theorem toNat_packComponents (s : Sign) {field fraction : Nat} (hf : field < 2 ^ 11) (hg : fraction < 2 ^ 52) :
    (packComponents .binary64 s (BitVec.ofNat _ field) (BitVec.ofNat _ fraction)).toNat =
      s.toBitVec.toNat * 2 ^ 63 + field * 2 ^ 52 + fraction := by
  rw [packComponents, toNat_append, toNat_append]
  simp only [BitVec.toNat_ofNat]
  rw [Nat.mod_eq_of_lt hf, Nat.mod_eq_of_lt hg]
  ring

/-- A double with a sign and an absolute value. -/
def unpacked (s : Sign) (b : Binary) : UnpackedFloat :=
  if h : 0 < b.mantissa then .finite s b.mantissa b.exponent h else .zero s

/-- The bits of an absolute value and a sign, unpacked. -/
theorem unpack_bits (s : Sign) {bits : Nat} (h : bits < infinityBits) :
    UnpackedFloat.unpack .binary64
        (packComponents .binary64 s (BitVec.ofNat _ (bits / 2 ^ 52)) (BitVec.ofNat _ (bits % 2 ^ 52))) =
      unpacked s (Binary.ofBits bits) := by
  rw [infinityBits_eq] at h
  rw [Binary.ofBits, twoTo_eq, twoTo_eq]
  generalize hfield : bits / 2 ^ 52 = field
  generalize hfraction : bits % 2 ^ 52 = fraction
  have hf : field < 2047 := by omega
  have hg : fraction < 2 ^ 52 := by omega
  have exponent : (BitVec.ofNat 11 field).toNat = field := by
    rw [BitVec.toNat_ofNat]
    omega
  have low : (BitVec.ofNat 52 fraction).toNat = fraction := Nat.mod_eq_of_lt hg
  have implicit : (1#1 ++ BitVec.ofNat 52 fraction).toNat = 2 ^ 52 + fraction := by
    rw [toNat_append, low]
    simp
  have notAllOnes : BitVec.ofNat 11 field ≠ -1#11 := fun h => by
    have := congrArg BitVec.toNat h
    simp at this
    omega
  have fieldZero : BitVec.ofNat 11 field = 0#11 ↔ field = 0 := by
    rw [← BitVec.toNat_inj, exponent]
    rfl
  have fractionZero : BitVec.ofNat 52 fraction = 0#52 ↔ fraction = 0 := by
    rw [← BitVec.toNat_inj, low]
    rfl
  rw [Nat.mod_eq_of_lt (show field < 2 ^ 11 by omega)]
  simp only [UnpackedFloat.unpack, UnpackedFloat.unpackExponent_packComponents,
    UnpackedFloat.unpackMantissa_packComponents, UnpackedFloat.unpackSign_packComponents, Sign.ofBitVec_toBitVec,
    notAllOnes, fieldZero, fractionZero, implicit, exponent, low, if_false]
  by_cases subnormal : field = 0
  · subst subnormal
    rw [if_pos rfl, if_pos rfl]
    by_cases zero : fraction = 0
    · rw [dif_pos zero, unpacked, dif_neg (by simp [zero])]
    · rw [dif_neg zero, unpacked, dif_pos (Nat.pos_of_ne_zero zero)]
      rfl
  · rw [if_neg subnormal, if_neg subnormal, unpacked, dif_pos (by simp)]
    rfl

/-- Bits that are not those of a number are left alone. -/
theorem unpack_ofBits {a : UInt64} (h : UnpackedFloat.unpack .binary64 a.toBitVec ≠ .notANumber) :
    (Float.ofBits a).toModel.unpack = UnpackedFloat.unpack .binary64 a.toBitVec := by
  have number : @UnpackedFloat.isNaNBits .binary64 a.toBitVec = false := by
    refine Bool.eq_false_iff.2 fun nan => h ?_
    obtain ⟨exponent, mantissa⟩ := of_decide_eq_true nan
    rw [UnpackedFloat.unpack, if_pos exponent, if_neg mantissa]
  have packed := @UnpackedFloat.pack_unpack .binary64 a.toBitVec (by decide)
  rw [number] at packed
  exact congrArg (UnpackedFloat.unpack .binary64) packed

/-- The double with a sign whose other bits are given. -/
def ofSignedBits (negative : Bool) (bits : Nat) : Float :=
  Float.ofBits (UInt64.ofNat (if negative then twoTo 63 + bits else bits))

theorem unpack_ofSignedBits (negative : Bool) {bits : Nat} (h : bits < infinityBits) :
    (ofSignedBits negative bits).toModel.unpack =
      unpacked (if negative then .negative else .positive) (Binary.ofBits bits) := by
  have packed : (UInt64.ofNat (if negative then twoTo 63 + bits else bits)).toBitVec =
      packComponents .binary64 (if negative then .negative else .positive) (BitVec.ofNat _ (bits / 2 ^ 52))
        (BitVec.ofNat _ (bits % 2 ^ 52)) := by
    rw [infinityBits_eq] at h
    refine BitVec.eq_of_toNat_eq ?_
    rw [toNat_packComponents _ (by omega) (by omega), UInt64.toNat_toBitVec, UInt64.toNat_ofNat', twoTo_eq]
    cases negative with
    | false =>
      change bits % 2 ^ 64 = 0 * 2 ^ 63 + _ + _
      omega
    | true =>
      change (2 ^ 63 + bits) % 2 ^ 64 = 1 * 2 ^ 63 + _ + _
      omega
  have unpacks := unpack_bits (if negative then .negative else .positive) h
  rw [← packed] at unpacks
  rw [ofSignedBits, unpack_ofBits, unpacks]
  rw [unpacks, unpacked]
  split <;> exact nofun

/-- What a double with given bits is. -/
theorem ofSignedBits_spec (negative : Bool) {bits : Nat} (h : bits < infinityBits) :
    (ofSignedBits negative bits).isFinite = true ∧
      value (ofSignedBits negative bits) = signed negative (Binary.ofBits bits).value ∧
      mantissa (ofSignedBits negative bits) = (Binary.ofBits bits).mantissa := by
  have unpacks := unpack_ofSignedBits negative h
  have finite : (ofSignedBits negative bits).isFinite = (ofSignedBits negative bits).toModel.unpack.isFinite := rfl
  rw [finite, value, mantissa, unpacks, unpacked, Binary.value]
  generalize Binary.ofBits bits = b
  by_cases pos : 0 < b.mantissa
  · rw [dif_pos pos]
    cases negative <;> simp [UnpackedFloat.isFinite, unpackedValue, Sign.apply, signed]
  · rw [dif_neg pos, Nat.eq_zero_of_not_pos pos]
    cases negative <;> simp [UnpackedFloat.isFinite, unpackedValue, signed]

/-! ## Canonical numbers -/

/-- The mantissa and the exponent of a finite double: a mantissa of 53 bits, or fewer if the exponent is the least one.
Zero has the least exponent. -/
structure Canonical (m : Nat) (e : Int) : Prop where
  lt : m < 2 ^ 53
  ge : -1074 ≤ e
  le : e ≤ 971
  normal : e = -1074 ∨ 2 ^ 52 ≤ m

theorem canonical_zero : Canonical 0 (-1074) := ⟨by omega, le_rfl, by omega, .inl rfl⟩

/-- The bits of the exponent are zero for the least exponent only, where the mantissa goes without its leading bit. -/
theorem canonical_unpack {b : BitVec 64} {s : Sign} {m : Nat} {e : Int} {h : 0 < m}
    (hb : UnpackedFloat.unpack .binary64 b = .finite s m e h) : Canonical m e := by
  unfold UnpackedFloat.unpack at hb
  extract_lets mvec evec exponent svec sign at hb
  have bias : exponent = (evec.toNat : Int) - 1075 := rfl
  split at hb
  · split at hb <;> cases hb
  next notAllOnes =>
  have bound : evec.toNat < 2047 := by
    refine lt_of_le_of_ne (Nat.le_of_lt_succ evec.isLt) fun all => notAllOnes (BitVec.eq_of_toNat_eq ?_)
    rw [all]
    rfl
  split at hb
  · next subnormal =>
    split at hb
    · cases hb
    · simp only [UnpackedFloat.finite.injEq] at hb
      obtain ⟨-, rfl, rfl⟩ := hb
      have lt : mvec.toNat < 2 ^ 52 := mvec.isLt
      have zero : evec.toNat = 0 := by rw [subnormal]; rfl
      exact ⟨by omega, by omega, by omega, .inl (by omega)⟩
  · next normal =>
    simp only [UnpackedFloat.finite.injEq] at hb
    obtain ⟨-, rfl, rfl⟩ := hb
    have pos : 0 < evec.toNat := by
      refine Nat.pos_of_ne_zero fun zero => normal (BitVec.eq_of_toNat_eq ?_)
      rw [zero]
      rfl
    have lt : mvec.toNat < 2 ^ 52 := mvec.isLt
    have implicit : (1#1 ++ mvec).toNat = 2 ^ 52 + mvec.toNat := by
      rw [toNat_append]
      simp
    exact ⟨by omega, by omega, by omega, .inr (by omega)⟩

/-- Canonical in so far as there is a mantissa. -/
def IsCanonical (a : UnpackedFloat) : Prop := ∀ s m e h, a = .finite s m e h → Canonical m e

theorem isCanonical (x : Float) : IsCanonical x.toModel.unpack := fun _ _ _ _ h => canonical_unpack h

/-- A finite double is a canonical number with a sign, where zero has the least exponent. -/
theorem exists_canonical {x : Float} (hx : x.isFinite = true) :
    ∃ negative m e, Canonical m e ∧ value x = signed negative (m * 2 ^ e) ∧ mantissa x = m := by
  have finite : x.toModel.unpack.isFinite = true := hx
  unfold value mantissa
  cases h : x.toModel.unpack with
  | infinity | notANumber =>
    rw [h] at finite
    cases finite
  | zero s => exact ⟨false, 0, -1074, canonical_zero, by simp [unpackedValue, signed], rfl⟩
  | finite s m e pos =>
    have canonical := isCanonical x s m e pos h
    cases s with
    | positive => exact ⟨false, m, e, canonical, unpackedValue_positive m e pos, rfl⟩
    | negative => exact ⟨true, m, e, canonical, unpackedValue_negative m e pos, rfl⟩

/-- Every canonical number is a double. -/
theorem exists_value (negative : Bool) {m : Nat} {e : Int} (h : Canonical m e) :
    ∃ x : Float, x.isFinite = true ∧ value x = signed negative (m * 2 ^ e) := by
  have small : (e + 1074).toNat * 2 ^ 52 + m < infinityBits := by
    have := h.lt
    have := h.le
    rw [infinityBits_eq]
    omega
  obtain ⟨finite, same, -⟩ := ofSignedBits_spec negative small
  rw [(Binary.ofBits_add h.ge h.lt.le h.normal small).1] at same
  exact ⟨_, finite, same⟩

/-! ## The order of doubles -/

section

variable {m₁ m₂ : Nat} {e₁ e₂ : Int}

/-- A canonical number is smaller than all mantissas of 53 bits with a greater exponent. -/
theorem Canonical.lt_of_lt {m : Nat} {e f : Int} (h : Canonical m e) (lt : e < f) :
    (m : ℚ) * 2 ^ e < 2 ^ 52 * 2 ^ f := by
  have small : (m : ℚ) < 2 ^ 53 := by exact_mod_cast h.lt
  calc (m : ℚ) * 2 ^ e < 2 ^ 53 * 2 ^ e := by gcongr
    _ = 2 ^ (e + 53) := two_pow_mul 53 e
    _ ≤ 2 ^ (f + 52) := zpow_le_zpow_right₀ one_le_two (by omega)
    _ = 2 ^ 52 * 2 ^ f := (two_pow_mul 52 f).symm

theorem lt_of_exponent_lt (h₁ : Canonical m₁ e₁) (h₂ : Canonical m₂ e₂) (h : e₁ < e₂) :
    (m₁ : ℚ) * 2 ^ e₁ < m₂ * 2 ^ e₂ := by
  have large : (2 : ℚ) ^ 52 ≤ m₂ := by
    exact_mod_cast h₂.normal.resolve_left (by have := h₁.ge; omega)
  refine (h₁.lt_of_lt h).trans_le ?_
  gcongr

/-- Exponents are compared first, then mantissas. -/
theorem compare_canonical (h₁ : Canonical m₁ e₁) (h₂ : Canonical m₂ e₂) :
    (compare e₁ e₂).then (compare m₁ m₂) = compare ((m₁ : ℚ) * 2 ^ e₁) (m₂ * 2 ^ e₂) := by
  rcases lt_trichotomy e₁ e₂ with h | rfl | h
  · rw [compare_lt_iff_lt.2 h, compare_lt_iff_lt.2 (lt_of_exponent_lt h₁ h₂ h)]
    rfl
  · have pos : (0 : ℚ) < 2 ^ e₁ := by positivity
    rw [compare_eq_iff_eq.2 rfl, Ordering.eq_then]
    rcases lt_trichotomy m₁ m₂ with h | rfl | h
    · rw [compare_lt_iff_lt.2 h, eq_comm, compare_lt_iff_lt]
      gcongr
    · rw [compare_eq_iff_eq.2 rfl, compare_eq_iff_eq.2 rfl]
    · rw [compare_gt_iff_gt.2 h, eq_comm, compare_gt_iff_gt]
      have : (m₂ : ℚ) < m₁ := by exact_mod_cast h
      exact mul_lt_mul_of_pos_right this pos
  · rw [compare_gt_iff_gt.2 h, compare_gt_iff_gt.2 (lt_of_exponent_lt h₂ h₁ h)]
    rfl

end

theorem compare_neg (a b : ℚ) : compare (-a) (-b) = (compare a b).swap := by
  rcases lt_trichotomy a b with h | rfl | h
  · rw [compare_lt_iff_lt.2 h, compare_gt_iff_gt.2 (neg_lt_neg h)]
    rfl
  · rw [compare_eq_iff_eq.2 rfl, compare_eq_iff_eq.2 rfl]
    rfl
  · rw [compare_gt_iff_gt.2 h, compare_lt_iff_lt.2 (neg_lt_neg h)]
    rfl

/-- Unpacked doubles are compared by their signs, then by exponent and mantissa. -/
theorem compare_unpacked {a b : UnpackedFloat} (ha : a.isFinite = true) (hb : b.isFinite = true) (ca : IsCanonical a)
    (cb : IsCanonical b) : a.compare b = some (compare (unpackedValue a) (unpackedValue b)) := by
  have pos {m : Nat} (e : Int) (h : 0 < m) : (0 : ℚ) < m * 2 ^ e := by
    have : (0 : ℚ) < m := by exact_mod_cast h
    positivity
  cases a with
  | infinity | notANumber => cases ha
  | zero s =>
    cases b with
    | infinity | notANumber => cases hb
    | zero t => exact congrArg some (compare_eq_iff_eq.2 rfl).symm
    | finite t n f hn =>
      cases t with
      | positive =>
        rw [unpackedValue_positive]
        exact congrArg some (compare_lt_iff_lt.2 (pos f hn)).symm
      | negative =>
        rw [unpackedValue_negative]
        exact congrArg some (compare_gt_iff_gt.2 (neg_lt_zero.2 (pos f hn))).symm
  | finite s m e hm =>
    cases b with
    | infinity | notANumber => cases hb
    | zero t =>
      cases s with
      | positive =>
        rw [unpackedValue_positive]
        exact congrArg some (compare_gt_iff_gt.2 (pos e hm)).symm
      | negative =>
        rw [unpackedValue_negative]
        exact congrArg some (compare_lt_iff_lt.2 (neg_lt_zero.2 (pos e hm))).symm
    | finite t n f hn =>
      have same := compare_canonical (ca s m e hm rfl) (cb t n f hn rfl)
      cases s with
      | positive =>
        cases t with
        | positive =>
          rw [unpackedValue_positive, unpackedValue_positive, ← same]
          rfl
        | negative =>
          rw [unpackedValue_positive, unpackedValue_negative]
          exact congrArg some (compare_gt_iff_gt.2 ((neg_lt_zero.2 (pos f hn)).trans (pos e hm))).symm
      | negative =>
        cases t with
        | positive =>
          rw [unpackedValue_positive, unpackedValue_negative]
          exact congrArg some (compare_lt_iff_lt.2 ((neg_lt_zero.2 (pos e hm)).trans (pos f hn))).symm
        | negative =>
          rw [unpackedValue_negative, unpackedValue_negative, compare_neg, ← same]
          rfl

section

variable {x y : Float}

theorem compare_eq (hx : x.isFinite = true) (hy : y.isFinite = true) :
    x.toModel.compare y.toModel = some (compare (value x) (value y)) :=
  compare_unpacked hx hy (isCanonical x) (isCanonical y)

theorem beq_eq (hx : x.isFinite = true) (hy : y.isFinite = true) : (x == y) = (compare (value x) (value y)).isEq := by
  change (x.toModel.compare y.toModel == some .eq) = _
  rw [compare_eq hx hy]
  cases compare (value x) (value y) <;> rfl

theorem decide_lt_eq (hx : x.isFinite = true) (hy : y.isFinite = true) :
    decide (x < y) = (compare (value x) (value y)).isLT := by
  have same : decide (x < y) = (x.toModel.compare y.toModel == some .lt) := by
    change decide (decide ((x.toModel.compare y.toModel == some .lt) = true) = true) = _
    rw [Bool.decide_coe, Bool.decide_coe]
  rw [same, compare_eq hx hy]
  cases compare (value x) (value y) <;> rfl

theorem decide_le_eq (hx : x.isFinite = true) (hy : y.isFinite = true) :
    decide (x ≤ y) = (compare (value x) (value y)).isLE := by
  have same : decide (x ≤ y) = (x.toModel.compare y.toModel).any (·.isLE) := by
    change decide (decide ((x.toModel.compare y.toModel).any (·.isLE) = true) = true) = _
    rw [Bool.decide_coe, Bool.decide_coe]
  rw [same, compare_eq hx hy]
  rfl

end

end Double

end MiniLisp

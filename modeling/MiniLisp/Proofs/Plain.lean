import MiniLisp.Proofs.Scan
import MiniLisp.Token.Numeral

/-!
# What written runs stand for

The digits of an integer stand for that integer (`ofPlain?_integer`); a run that does not start like a numeral stands
for a name (`ofPlain?_eq_ofName`), and a name that can be told from everything else (`IsName`) for the symbol of that
name (`ofPlain?_symbol`).
-/

namespace MiniLisp

namespace Decimal

theorem ofDigits_digits (n : Nat) : ofDigits (digits n) = n := Nat.ofDigitChars_ten_toDigits

theorem isDigit_of_mem_digits {c : Char} {n : Nat} (h : c ∈ digits n) : c.isDigit = true :=
  Nat.isDigit_of_mem_toDigits (by decide) (by decide) h

/-- Digits continue plain runs, and may begin them. -/
theorem isPlain_of_isDigit {c : Char} (h : c.isDigit = true) :
    isPlain c = true ∧ Token.ofMark? c = none ∧ c ≠ '-' ∧ c ≠ '+' := by
  have hmem : c ∈ ['0', '1', '2', '3', '4', '5', '6', '7', '8', '9'] := by
    simp only [Char.isDigit, Bool.and_eq_true, decide_eq_true_eq] at h
    have h48 : 48 ≤ c.toNat := UInt32.le_iff_toNat_le.1 h.1
    have h57 : c.toNat ≤ 57 := UInt32.le_iff_toNat_le.1 h.2
    have hofNat : c = Char.ofNat c.toNat := (Char.ofNat_toNat c).symm
    generalize c.toNat = n at h48 h57 hofNat
    have hn : n = 48 ∨ n = 49 ∨ n = 50 ∨ n = 51 ∨ n = 52 ∨ n = 53 ∨ n = 54 ∨ n = 55 ∨ n = 56 ∨ n = 57 := by omega
    rcases hn with rfl | rfl | rfl | rfl | rfl | rfl | rfl | rfl | rfl | rfl <;> subst hofNat <;> decide
  simp only [List.mem_cons, List.not_mem_nil, or_false] at hmem
  rcases hmem with rfl | rfl | rfl | rfl | rfl | rfl | rfl | rfl | rfl | rfl <;> decide

/-- Digits are a run. -/
theorem isRun_digits (n : Nat) : IsRun (digits n) := by
  refine ⟨fun c hc => (isPlain_of_isDigit (isDigit_of_mem_digits hc)).1, ?_⟩
  cases hd : digits n with
  | nil => exact absurd hd Nat.toDigits_ne_nil
  | cons c r => exact ⟨c, r, rfl, (isPlain_of_isDigit (isDigit_of_mem_digits (hd ▸ List.mem_cons_self))).2.1⟩

/-- A printed integer is one plain token. -/
theorem isRun_integer (i : Int) : IsRun (integer i) := by
  unfold integer
  split
  · refine ⟨fun c hc => ?_, '-', _, rfl, rfl⟩
    rcases List.mem_cons.1 hc with rfl | hc
    · decide
    · exact (isRun_digits _).plain c hc
  · exact isRun_digits _

end Decimal

namespace Numeral

open Decimal (digits integer)

/-- Digits have no sign. -/
theorem sign_digits (n : Nat) : sign (digits n) = (false, digits n) := by
  cases hd : digits n with
  | nil => rfl
  | cons c r =>
    have hc := Decimal.isPlain_of_isDigit (Decimal.isDigit_of_mem_digits (hd ▸ List.mem_cons_self : c ∈ digits n))
    unfold sign
    split <;> simp_all

theorem sign_integer (i : Int) : sign (integer i) = (decide (i < 0), digits i.natAbs) := by
  unfold integer
  split
  · next h => simp [sign, h]
  · next h => rw [sign_digits]; simp [h]

/-- It is taken apart into its sign and its digits. -/
theorem ofChars?_integer (i : Int) : ofChars? (integer i) = some ⟨decide (i < 0), digits i.natAbs, none, none⟩ := by
  have hall : ∀ c ∈ digits i.natAbs, Text.isDigit c = true := fun c hc =>
    Text.isDigit_of_ascii (Decimal.isDigit_of_mem_digits hc)
  obtain ⟨htake, hdrop⟩ := @span_append _ (digits i.natAbs) [] hall (by simp)
  rw [List.append_nil] at htake hdrop
  have hne : digits i.natAbs ≠ [] := Nat.toDigits_ne_nil
  simp only [ofChars?, sign_integer, htake, hdrop, if_neg hne, exponent?, Option.map_some]

/-- Digits of a 64-bit integer are within range, and read back as it. -/
theorem value?_integer (n : Int64) :
    value? ⟨decide (n.toInt < 0), digits n.toInt.natAbs, none, none⟩ = some (.int n) := by
  have hascii : isAscii ⟨decide (n.toInt < 0), digits n.toInt.natAbs, none, none⟩ = true := by
    simpa [isAscii] using fun c hc => Decimal.isDigit_of_mem_digits hc
  have hint : (if n.toInt < 0 then -(n.toInt.natAbs : Int) else n.toInt.natAbs) = n.toInt := by
    split <;> omega
  have hlow : Int64.minValue.toInt ≤ n.toInt := n.minValue_le_toInt
  have hhigh : n.toInt ≤ Int64.maxValue.toInt := n.toInt_le
  simp only [value?, hascii, int?, Decimal.ofDigits_digits, decide_eq_true_eq, hint, hlow, hhigh]
  simp

/-- What has the form of a numeral starts like one. -/
theorem startsLike_of_ofChars? {chars : List Char} {n : Numeral} (h : ofChars? chars = some n) :
    startsLike chars = true := by
  simp only [ofChars?] at h
  unfold startsLike
  -- without a whole part there is a point with a digit after it
  cases hb : (sign chars).2 with
  | nil => simp [hb] at h
  | cons c r =>
    rw [hb] at h
    cases hd : Text.isDigit c with
    | true =>
      have hdot : c ≠ '.' := by rintro rfl; revert hd; decide
      simp [hd, hdot]
    | false =>
      simp only [List.takeWhile_cons, hd, List.dropWhile_cons, Bool.false_eq_true, if_false] at h
      split at h
      · next r' hr =>
        cases hr
        cases r with
        | nil => simp [exponent?] at h
        | cons d r =>
          simp only
          cases hd' : Text.isDigit d with
          | true => rfl
          | false =>
            simp only [List.takeWhile_cons, hd', Bool.false_eq_true, if_false] at h
            split at h <;> simp at h
      · simp at h

end Numeral

/-! ## Names -/

/-- A name that a symbol can be told by: it is written as one run, and not as a keyword, a constant or a numeral. -/
structure IsName (s : String) : Prop where
  plain : ∀ c ∈ s.toList, isPlain c = true
  start : ∃ c r, s.toList = c :: r ∧ c ≠ '~' ∧ c ≠ '^' ∧ c ≠ '@' ∧ c ≠ ':'
  reserved : s ≠ "nil" ∧ s ≠ "true" ∧ s ≠ "false"
  notNumeral : Numeral.startsLike s.toList = false

/-- Of the characters that runs consist of, only three are marks. -/
theorem ofMark?_eq_none {c : Char} (h : isPlain c = true) (ht : c ≠ '~') (hc : c ≠ '^') (ha : c ≠ '@') :
    Token.ofMark? c = none := by
  have hend := endsPlain_of_isPlain h
  unfold Token.ofMark?
  split <;> first | rfl | contradiction

/-- A name is one plain token. -/
theorem IsName.isRun {s : String} (h : IsName s) : IsRun s.toList := by
  obtain ⟨c, r, hs, ht, hc, ha, -⟩ := h.start
  exact ⟨h.plain, c, r, hs, ofMark?_eq_none (h.plain c (hs ▸ List.mem_cons_self)) ht hc ha⟩

theorem isRun_keyword {name : List Char} (h : ∀ c ∈ name, isPlain c = true) : IsRun (':' :: name) := by
  refine ⟨fun c hc => ?_, ':', name, rfl, rfl⟩
  rcases List.mem_cons.1 hc with rfl | hc
  · decide
  · exact h c hc

namespace Value

/-- A printed integer is read as the integer. -/
theorem ofPlain?_integer (n : Int64) : ofPlain? (Decimal.integer n.toInt) = .ok (.int n) := by
  simp only [ofPlain?, Numeral.ofChars?_integer, Numeral.value?_integer]

theorem ofPlain?_eq_ofName {chars : List Char} (h : Numeral.startsLike chars = false) :
    ofPlain? chars = .ok (ofName chars) := by
  unfold ofPlain?
  cases hn : Numeral.ofChars? chars with
  | some n => rw [Numeral.startsLike_of_ofChars? hn] at h; cases h
  | none => simp [h]

theorem ofPlain?_keyword (name : String) : ofPlain? (':' :: name.toList) = .ok (.keyword name) := by
  rw [ofPlain?_eq_ofName (by simp [Numeral.startsLike, Numeral.sign]; decide)]
  simp [ofName]

/-- A name is read as the symbol of that name. -/
theorem ofPlain?_symbol {s : String} (h : IsName s) : ofPlain? s.toList = .ok (.symbol s) := by
  rw [ofPlain?_eq_ofName h.notNumeral]
  obtain ⟨c, r, hs, -, -, -, hc⟩ := h.start
  obtain ⟨hnil, htrue, hfalse⟩ := h.reserved
  have hne {t : String} (ht : s ≠ t) : c :: r ≠ t.toList := fun he => ht (String.toList_inj.1 (hs.trans he))
  have hback : String.ofList (c :: r) = s := by rw [← hs, String.ofList_toList]
  rw [hs]
  unfold ofName
  split
  · next he => cases he
  · next he => cases he; exact absurd rfl hc
  · rw [if_neg (hne hnil), if_neg (hne htrue), if_neg (hne hfalse), hback]

end Value

end MiniLisp

import Mathlib
import MiniLisp.Proofs.FloatText
import MiniLisp.Proofs.Literals

/-!
# The classes of plain tokens

What the texts of plain tokens stand for, by how they are written: an integer is written as ASCII digits after an
optional sign (`Numeral.SpellsInt`); what begins as numerals do is a number or malformed, and what does not is a name.
No text belongs to two classes, and every one belongs to a class.

* `Value.ofPlain?_eq_int_iff`: integers are what is written as one and has 64 bits.
* `Value.ofPlain?_of_begins`, `Value.ofPlain?_of_not_begins`: numbers and names.
* `Value.reads_print`: integers, keywords and symbols are printed as plain tokens of their own class.
* **Classes of plain tokens** (`plain_tokens_are_classified`).
-/

namespace MiniLisp

/-! ## Integers -/

namespace Numeral

/-- How an integer is written: as ASCII digits, of which the first ones may be zeros, after an optional sign. -/
inductive SpellsInt : List Char → Int → Prop
  | digits {negative : Bool} {s ds : List Char} (hs : Sign negative s) (hne : ds ≠ [])
      (hd : ∀ c ∈ ds, c.isDigit = true) :
      SpellsInt (s ++ ds) (if negative then -(Decimal.ofDigits ds : Int) else Decimal.ofDigits ds)

/-- An integer of 64 bits. -/
def Fits (i : Int) : Prop := -2 ^ 63 ≤ i ∧ i < 2 ^ 63

theorem fits_toInt (n : Int64) : Fits n.toInt := ⟨n.le_toInt, n.toInt_lt⟩

theorem Fits.toInt_ofInt {i : Int} (h : Fits i) : (Int64.ofInt i).toInt = i :=
  Int64.toInt_ofInt_of_le h.1 h.2

variable {negative : Bool} {ds : List Char} {n : Int64}

theorem int?_eq_some_iff :
    int? negative ds = some n ↔ n.toInt = if negative then -(Decimal.ofDigits ds : Int) else Decimal.ofDigits ds := by
  simp only [int?]
  generalize (if negative then -(Decimal.ofDigits ds : Int) else Decimal.ofDigits ds) = i
  have low : Int64.minValue.toInt = -2 ^ 63 := by decide
  have high : Int64.maxValue.toInt = 2 ^ 63 - 1 := by decide
  rw [Option.ite_none_right_eq_some, low, high, Option.some.injEq]
  constructor
  · rintro ⟨fits, rfl⟩
    exact Fits.toInt_ofInt ⟨fits.1, by omega⟩
  · rintro rfl
    obtain ⟨lo, hi⟩ := fits_toInt n
    exact ⟨⟨lo, by omega⟩, Int64.ofInt_toInt n⟩

theorem int?_eq_none_iff :
    int? negative ds = none ↔ ¬ Fits (if negative then -(Decimal.ofDigits ds : Int) else Decimal.ofDigits ds) := by
  constructor
  · intro missing fits
    rw [int?_eq_some_iff.2 fits.toInt_ofInt] at missing
    cases missing
  · intro big
    cases h : int? negative ds with
    | none => rfl
    | some n => exact absurd (int?_eq_some_iff.1 h ▸ fits_toInt n) big

/-- Digits alone have the value that they have as an integer. -/
theorem value?_digits (hd : ∀ c ∈ ds, c.isDigit = true) :
    value? ⟨negative, ds, none, none⟩ = (int? negative ds).map .int := by
  have ascii : isAscii ⟨negative, ds, none, none⟩ = true := isAscii_iff.2 ⟨hd, by simp, by simp⟩
  simp [value?, ascii]

theorem spelled_digits {s : List Char} (hs : Sign negative s) (hne : ds ≠ []) (hd : ∀ c ∈ ds, c.isDigit = true) :
    Spelled ⟨negative, ds, none, none⟩ (s ++ ds) := by
  simpa using Spelled.whole hs hne (fun c hc => Text.isDigit_of_ascii (hd c hc)) .none

/-- What has the value of an integer has ASCII digits only, with neither point nor exponent. -/
theorem of_value?_int {m : Numeral} (h : m.value? = some (.int n)) :
    (∀ c ∈ m.whole, c.isDigit = true) ∧ m.fraction = none ∧ m.exponent = none ∧
      int? m.negative m.whole = some n := by
  unfold value? at h
  split at h
  · cases h
  next ascii =>
    split at h
    · next plain =>
      obtain ⟨k, exact, same⟩ := Option.map_eq_some_iff.1 h
      cases same
      exact ⟨(isAscii_iff.1 (by simpa using ascii)).1, Option.isNone_iff_eq_none.1 plain.1,
        Option.isNone_iff_eq_none.1 plain.2, exact⟩
    · cases h

end Numeral

open Numeral (SpellsInt Fits Sign)

namespace Value

variable {chars : List Char} {n : Int64} {i : Int} {v : Value}

section

variable {negative : Bool} {s ds : List Char} (hs : Sign negative s) (hne : ds ≠ []) (hd : ∀ c ∈ ds, c.isDigit = true)
include hs hne hd

/-- Digits are an integer if it has 64 bits, else they are malformed. -/
theorem ofPlain?_digits :
    ofPlain? (s ++ ds) = (Numeral.int? negative ds).elim (.error (.badNumber (s ++ ds))) fun n => .ok (.int n) := by
  simp only [ofPlain?, Numeral.ofChars?_of_spelled (Numeral.spelled_digits hs hne hd), Numeral.value?_digits hd]
  cases Numeral.int? negative ds <;> rfl

/-- Zeros in front of digits make no difference. -/
theorem ofPlain?_leadingZeros (k : Nat) :
    ofPlain? (s ++ (List.replicate k '0' ++ ds)) = .ok (.int n) ↔ ofPlain? (s ++ ds) = .ok (.int n) := by
  have same : Numeral.int? negative (List.replicate k '0' ++ ds) = Numeral.int? negative ds := by
    simp [Numeral.int?, Decimal.ofDigits_append, Decimal.ofDigits_replicate_zero]
  have padded := List.forall_mem_append.2 ⟨Decimal.isDigit_replicate_zero k, hd⟩
  rw [ofPlain?_digits hs (by simp [hne]) padded, ofPlain?_digits hs hne hd, same]
  cases Numeral.int? negative ds <;> simp

end

/-- Integers are what is written as one and has 64 bits. -/
theorem ofPlain?_eq_int_iff : ofPlain? chars = .ok (.int n) ↔ SpellsInt chars n.toInt := by
  constructor
  · intro h
    obtain ⟨spelled, value⟩ | _ := ofPlain?_eq_ok_iff.1 h
    obtain ⟨digits, noPoint, noExponent, exact⟩ := Numeral.of_value?_int value
    rw [Numeral.int?_eq_some_iff.1 exact]
    cases spelled with
    | point => cases noPoint
    | whole hs hne hd hx =>
      cases noExponent
      cases hx
      rw [List.append_nil]
      exact .digits hs hne digits
  · generalize exact : n.toInt = i
    rintro ⟨hs, hne, hd⟩
    rw [ofPlain?_digits hs hne hd, Numeral.int?_eq_some_iff.2 exact]
    rfl

/-- What is written like an integer of more than 64 bits is malformed. -/
theorem ofPlain?_of_not_fits (h : SpellsInt chars i) (big : ¬ Fits i) : ofPlain? chars = .error (.badNumber chars) := by
  obtain ⟨hs, hne, hd⟩ := h
  rw [ofPlain?_digits hs hne hd, Numeral.int?_eq_none_iff.2 big]
  rfl

/-- What begins as numerals do is a number or malformed. -/
theorem ofPlain?_of_begins (h : Numeral.Begins chars) :
    (∃ n, ofPlain? chars = .ok (.int n)) ∨ (∃ x, ofPlain? chars = .ok (.float x)) ∨
      ofPlain? chars = .error (.badNumber chars) := by
  unfold ofPlain?
  cases hn : Numeral.ofChars? chars with
  | none => simp [Numeral.startsLike_iff.2 h]
  | some m =>
    cases hv : m.value? with
    | none => simp [hv]
    | some v => rcases Numeral.value?_eq_some hv with ⟨n, rfl⟩ | ⟨x, rfl⟩ <;> simp [hv]

/-- What does not begin as numerals do is a name. -/
inductive Named : List Char → Value → Prop
  | nil : Named "nil".toList .nil
  | true : Named "true".toList (.bool true)
  | false : Named "false".toList (.bool false)
  | keyword (r : List Char) : Named (':' :: r) (.keyword (String.ofList r))
  | symbol {chars : List Char} (hr : chars ∉ ["nil".toList, "true".toList, "false".toList])
      (hk : chars.head? ≠ some ':') : Named chars (.symbol (String.ofList chars))

theorem ofPlain?_of_not_begins (h : ¬ Numeral.Begins chars) : ∃ v, ofPlain? chars = .ok v ∧ Named chars v := by
  cases hp : ofPlain? chars with
  | error fault => exact absurd (ofPlain?_eq_error_iff.1 hp).2.1 h
  | ok v =>
    refine ⟨v, rfl, ?_⟩
    cases ofPlain?_eq_ok_iff.1 hp with
    | number spelled _ =>
      exact absurd (Numeral.startsLike_iff.1 (Numeral.startsLike_of_ofChars? (Numeral.ofChars?_iff.2 spelled))) h
    | nil => exact .nil
    | true => exact .true
    | false => exact .false
    | keyword name => exact .keyword name
    | symbol _ hr hk => exact .symbol hr hk

/-! ## Prints -/

/-- Integers, keywords and symbols. -/
def isPlainClass : Value → Bool
  | int _ | keyword _ | symbol _ => true
  | _ => false

/-- What is read as an integer, a keyword or a symbol is printed as a plain token that is read as the same. -/
theorem reads_print (h : IsRun chars) (hv : ofPlain? chars = .ok v) (hc : v.isPlainClass = true) (mode : Mode)
    (contents : AtomId → Option (List Char)) :
    ∃ t, v.render mode contents = some t ∧ Token.scan? t = some [.plain t] ∧ ofPlain? t = .ok v := by
  have alone {t : List Char} (ht : IsRun t) : Token.scan? t = some [.plain t] := by
    have scanned := Token.scan?_run ht stops_nil
    rwa [List.append_nil, Token.scan?_nil] at scanned
  cases ofPlain?_eq_ok_iff.1 hv with
  | keyword name => exact ⟨_, rfl, by simpa using alone h, by simpa using hv⟩
  | symbol => exact ⟨_, rfl, by simpa using alone h, by simpa using hv⟩
  | number _ value =>
    rcases Numeral.value?_eq_some value with ⟨n, rfl⟩ | ⟨x, rfl⟩
    · exact ⟨_, rfl, alone (Decimal.isRun_integer n.toInt), ofPlain?_integer n⟩
    · cases hc
  | _ => cases hc

end Value

/-! ## All of it together -/

/-- The texts of plain tokens are the runs. -/
theorem isRun_iff {p : List Char} : IsRun p ↔ ∃ s ts, Token.scan? s = some ts ∧ .plain p ∈ ts := by
  constructor
  · intro h
    have scanned := Token.scan?_run h stops_nil
    rw [Token.scan?_nil] at scanned
    exact ⟨_, _, scanned, List.mem_cons_self⟩
  · rintro ⟨s, ts, scanned, hp⟩
    exact Token.wellFormed_of_scan? scanned _ hp

/-- **Classes of plain tokens.** The texts of plain tokens are the runs. What is written as an integer is this integer
if it has 64 bits, else it is malformed, and zeros in front make no difference; nothing else is an integer. What begins
as numerals do, with a digit of any script after an optional sign and an optional point, is an integer, a float or
malformed. Every other text is a name: one of the constants, the keyword of what follows a colon, or the symbol of that
name. The print of an integer, a keyword or a symbol is a plain token that stands for the same. -/
theorem plain_tokens_are_classified :
    (∀ p, IsRun p ↔ ∃ s ts, Token.scan? s = some ts ∧ .plain p ∈ ts) ∧
    (∀ p i, SpellsInt p i → (Fits i → ∃ n : Int64, n.toInt = i ∧ Value.ofPlain? p = .ok (.int n)) ∧
      (¬ Fits i → Value.ofPlain? p = .error (.badNumber p))) ∧
    (∀ p n, Value.ofPlain? p = .ok (.int n) → SpellsInt p n.toInt) ∧
    (∀ negative s ds k n, Sign negative s → ds ≠ [] → (∀ c ∈ ds, c.isDigit = true) →
      (Value.ofPlain? (s ++ (List.replicate k '0' ++ ds)) = .ok (.int n) ↔ Value.ofPlain? (s ++ ds) = .ok (.int n))) ∧
    (∀ p, Numeral.Begins p → (∃ n, Value.ofPlain? p = .ok (.int n)) ∨ (∃ x, Value.ofPlain? p = .ok (.float x)) ∨
      Value.ofPlain? p = .error (.badNumber p)) ∧
    (∀ p, ¬ Numeral.Begins p → ∃ v, Value.ofPlain? p = .ok v ∧ Value.Named p v) ∧
    (∀ p v, IsRun p → Value.ofPlain? p = .ok v → v.isPlainClass = true → ∀ mode contents,
      ∃ t, v.render mode contents = some t ∧ Token.scan? t = some [.plain t] ∧ Value.ofPlain? t = .ok v) := by
  refine ⟨fun p => isRun_iff, fun p i h => ⟨fun fits => ?_, Value.ofPlain?_of_not_fits h⟩,
    fun p n => Value.ofPlain?_eq_int_iff.1, fun negative s ds k n hs hne hd => Value.ofPlain?_leadingZeros hs hne hd k,
    fun p => Value.ofPlain?_of_begins, fun p => Value.ofPlain?_of_not_begins, fun p v => Value.reads_print⟩
  have exact := fits.toInt_ofInt
  exact ⟨.ofInt i, exact, Value.ofPlain?_eq_int_iff.2 (exact.symm ▸ h)⟩

theorem plain_tokens_are_classified_at_the_limits :
    (∃ n : Int64, n.toInt = -2 ^ 63 ∧ Value.ofPlain? "-9223372036854775808".toList = .ok (.int n)) ∧
      Value.ofPlain? "9223372036854775808".toList = .error (.badNumber "9223372036854775808".toList) ∧
      (Value.ofPlain? "+007".toList = .ok (.int 7) ↔ Value.ofPlain? "+7".toList = .ok (.int 7)) ∧
      ((∃ n, Value.ofPlain? ".5x".toList = .ok (.int n)) ∨ (∃ x, Value.ofPlain? ".5x".toList = .ok (.float x)) ∨
        Value.ofPlain? ".5x".toList = .error (.badNumber ".5x".toList)) ∧
      (∃ v, Value.ofPlain? "-".toList = .ok v ∧ Value.Named "-".toList v) ∧
      ∃ t, (Value.int 7).render .readable (fun _ => none) = some t ∧ Token.scan? t = some [.plain t] ∧
        Value.ofPlain? t = .ok (.int 7) := by
  obtain ⟨runs, integers, -, zeros, numbers, names, prints⟩ := plain_tokens_are_classified
  have digits : ∀ c ∈ "9223372036854775808".toList, c.isDigit = true := by simp
  have value : Decimal.ofDigits "9223372036854775808".toList = 2 ^ 63 := by rfl
  have least := SpellsInt.digits .minus (by decide) digits
  have big := SpellsInt.digits .none (by decide) digits
  simp only [value, if_true, Bool.false_eq_true, if_false, Nat.cast_pow, Nat.cast_ofNat] at least big
  have dash : ¬ Numeral.Begins "-".toList := by
    rw [← Numeral.startsLike_iff]
    decide
  have dotted : Text.isDigit '5' = true := Text.isDigit_of_ascii rfl
  have run : IsRun ['7'] := Decimal.isRun_digits 7
  exact ⟨(integers _ _ least).1 ⟨by omega, by omega⟩, (integers _ _ big).2 fun fits => absurd fits.2 (by omega),
    zeros false ['+'] ['7'] 2 7 .plus (by decide) (List.forall_mem_singleton.2 rfl),
    numbers _ (.point .none dotted ['x']), names _ dash,
    prints ['7'] (.int 7) run rfl rfl .readable _⟩

end MiniLisp

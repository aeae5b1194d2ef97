import MiniLisp.Proofs.Literals

/-!
# Exponents behind numerals

A numeral without an exponent may be given one, and then stands for a float: the same digits, at a scale that the
exponent moves. That is so unless the numeral begins with its point.

* `Numeral.extend`: a numeral with an exponent.
* **Exponents** (`exponent_extends_numeral`): what a numeral with an exponent behind it is read as.
* `point_first_refuses_exponent`: a numeral that begins with its point, with an exponent.
-/

namespace MiniLisp

namespace Numeral

/-- The numeral with an exponent, given by its sign and its digits. -/
def extend (n : Numeral) (e : Bool × List Char) : Numeral := { n with exponent := some e }

/-- The power of ten that an exponent says. -/
def power (e : Bool × List Char) : Int := if e.1 then -(Decimal.ofDigits e.2 : Int) else Decimal.ofDigits e.2

/-- A text that has the point first, but for a sign. -/
def PointFirst (chars : List Char) : Prop := ∃ negative s rest, Sign negative s ∧ chars = s ++ '.' :: rest

variable {n : Numeral} {p x ds : List Char} {negative : Bool}

/-- An exponent is told by its letter. -/
theorem exponent_eq_none (h : n.Spelled p) (hp : 'e' ∉ p ∧ 'E' ∉ p) : n.exponent = none := by
  have silent {e : Option (Bool × List Char)} {x : List Char} (hx : Exponent e x) (hsub : ∀ c ∈ x, c ∈ p) :
      e = none := by
    cases hx with
    | none => rfl
    | some he =>
      have letter := hsub _ List.mem_cons_self
      rcases he with rfl | rfl
      · exact absurd letter hp.1
      · exact absurd letter hp.2
  cases h with
  | whole _ _ _ hx => exact silent hx fun c hc => List.mem_append_right _ hc
  | point _ _ _ hx => exact silent hx fun c hc => by simp [hc]

theorem pointFirst_iff (h : n.Spelled p) : PointFirst p ↔ n.whole = [] := by
  have same {s r : List Char} {negative : Bool} (hs : Sign negative s) (hp : p = s ++ '.' :: r) :
      sign p = (negative, '.' :: r) := hp ▸ sign_append hs _ (by simp)
  have digitFirst {negative : Bool} {s ds r : List Char} {c : Char} (hs : Sign negative s)
      (hd : ∀ d ∈ c :: ds, Text.isDigit d = true) (hp : p = s ++ (c :: ds ++ r)) : ¬PointFirst p := by
    rintro ⟨_, s', r', hs', hp'⟩
    have hc := hd c List.mem_cons_self
    have signed : sign p = (negative, c :: ds ++ r) := hp ▸ sign_append hs _ (by simpa using ne_sign_of_isDigit hc)
    rw [same hs' hp'] at signed
    cases signed
    revert hc
    decide
  cases h with
  | @whole _ s ds x _ hs hne hd =>
    obtain ⟨c, ds, rfl⟩ := List.exists_cons_of_ne_nil hne
    exact iff_of_false (digitFirst hs hd (List.append_assoc ..)) hne
  | @point _ s ds fs x _ hs hd =>
    cases ds with
    | nil => exact iff_of_true ⟨_, s, fs ++ x, hs, by simp⟩ rfl
    | cons c ds => exact iff_of_false (digitFirst hs hd (List.append_assoc ..)) (by simp)

/-- Digits in front may be followed by an exponent. -/
theorem Spelled.extend (h : n.Spelled p) (hn : n.exponent = none) (hw : n.whole ≠ [])
    (hx : Exponent (some (negative, ds)) x) : (n.extend (negative, ds)).Spelled (p ++ x) := by
  cases h with
  | whole hs hne hd he =>
    cases hn
    cases he
    simpa [Numeral.extend] using Spelled.whole hs hne hd hx
  | point hs hd hf he hne =>
    cases hn
    cases he
    simpa [Numeral.extend] using Spelled.point hs hd hf hx (.inl hw)

/-- A point in front may not. -/
theorem ofChars?_point_first (h : n.Spelled p) (hn : n.exponent = none) (hw : n.whole = [])
    (hx : Exponent (some (negative, ds)) x) : ofChars? (p ++ x) = none := by
  cases h with
  | whole _ hne => exact absurd hw hne
  | @point _ s _ fs _ _ hs _ hf he =>
    cases hn
    cases he
    cases hw
    have noDigit : ∀ c ∈ ('.' :: (fs ++ x)).head?, Text.isDigit c = false := by
      simp only [List.head?_cons, Option.mem_def, Option.some.injEq, forall_eq']
      decide
    obtain ⟨htake, hdrop⟩ := span_append (List.forall_mem_nil _) noDigit
    obtain ⟨-, hdrop'⟩ := span_append hf fun c hc => (hx.head c hc).1
    have hsign : sign (s ++ '.' :: (fs ++ x)) = (_, '.' :: (fs ++ x)) := sign_append hs _ (by simp)
    simp only [List.nil_append] at htake hdrop
    simp [ofChars?, hsign, htake, hdrop, hdrop', exponent?_iff.2 hx]

theorem startsLike_append (h : startsLike p = true) (x : List Char) : startsLike (p ++ x) = true := by
  rw [startsLike_iff] at h ⊢
  cases h with
  | digit hs hc rest => simpa using Begins.digit hs hc (rest ++ x)
  | point hs hc rest => simpa using Begins.point hs hc (rest ++ x)

/-- The digits keep their value, at another scale. -/
theorem value?_extend {v : Value} (hv : n.value? = some v) (hn : n.exponent = none)
    (hd : ∀ c ∈ ds, c.isDigit = true) :
    (n.extend (negative, ds)).value? = some (.float (Decimal.nearest n.negative
      (Decimal.ofDigits (n.whole ++ n.fraction.getD [])) (n.scale + power (negative, ds)))) := by
  have before : n.isAscii = true := by
    by_contra h
    simp [value?, h] at hv
  obtain ⟨whole, fraction, -⟩ := isAscii_iff.1 before
  have ascii : (n.extend (negative, ds)).isAscii = true := isAscii_iff.2 ⟨whole, fraction, by rintro e ⟨⟩; exact hd⟩
  have moved : (n.extend (negative, ds)).scale = n.scale + power (negative, ds) := by
    cases negative <;> simp [scale, Numeral.extend, hn, power] <;> omega
  have float : ¬((n.extend (negative, ds)).fraction.isNone ∧ (n.extend (negative, ds)).exponent.isNone) := by
    simp [Numeral.extend]
  rw [value?_eq_float ascii float, moved]
  rfl

end Numeral

/-- What is read as a number is a numeral. -/
theorem exists_numeral {p : List Char} {v : Value} (hp : Value.ofPlain? p = .ok v)
    (hv : (∃ i, v = .int i) ∨ ∃ y, v = .float y) : ∃ n : Numeral, n.Spelled p ∧ n.value? = some v := by
  have literal := Value.ofPlain?_eq_ok_iff.1 hp
  cases literal with
  | number h hv => exact ⟨_, h, hv⟩
  | _ => simp at hv

/-- **Exponents behind numerals.** A number written without an exponent may be given one: the digits then stand for
the double nearest to them at the scale that the exponent moves. Only if the point comes first, what results is
malformed. -/
theorem exponent_extends_numeral {p x ds : List Char} {negative : Bool} {v : Value} (hp : Value.ofPlain? p = .ok v)
    (hv : (∃ i, v = .int i) ∨ ∃ y, v = .float y) (he : 'e' ∉ p ∧ 'E' ∉ p)
    (hx : Numeral.Exponent (some (negative, ds)) x) (hd : ∀ c ∈ ds, c.isDigit = true) :
    ∃ n : Numeral, n.Spelled p ∧ n.value? = some v ∧
      (¬Numeral.PointFirst p → Value.ofPlain? (p ++ x) = .ok (.float (Decimal.nearest n.negative
        (Decimal.ofDigits (n.whole ++ n.fraction.getD [])) (n.scale + Numeral.power (negative, ds))))) ∧
      (Numeral.PointFirst p → Value.ofPlain? (p ++ x) = .error (.badNumber (p ++ x))) := by
  obtain ⟨n, spelled, value⟩ := exists_numeral hp hv
  have plain := Numeral.exponent_eq_none spelled he
  refine ⟨n, spelled, value, fun digits => ?_, fun point => ?_⟩
  · rw [Numeral.pointFirst_iff spelled] at digits
    exact Value.ofPlain?_of_literal (.number (spelled.extend plain digits hx) (Numeral.value?_extend value plain hd))
  · have none := Numeral.ofChars?_point_first spelled plain ((Numeral.pointFirst_iff spelled).1 point) hx
    have starts := Numeral.startsLike_append (Numeral.startsLike_of_ofChars? (Numeral.ofChars?_of_spelled spelled)) x
    simp only [Value.ofPlain?, none, starts, if_true]

/-- The numeral `-5.` with the exponent `E+03`. -/
theorem exponent_extends_numeral_trailing_point :
    Value.ofPlain? ['-', '5', '.'] = .ok (.float (Decimal.nearest true 5 0)) ∧
      Value.ofPlain? ['-', '5', '.', 'E', '+', '0', '3'] = .ok (.float (Decimal.nearest true 5 3)) := by
  have read : Value.ofPlain? ['-', '5', '.'] = .ok (.float (Decimal.nearest true 5 0)) := rfl
  have ascii : ∀ c ∈ ['0', '3'], c.isDigit = true := by simp
  have exponent : Numeral.Exponent (some (false, ['0', '3'])) ['E', '+', '0', '3'] :=
    .some (.inr rfl) .plus (by decide) fun c hc => Text.isDigit_of_ascii (ascii c hc)
  obtain ⟨n, spelled, -, extended, -⟩ :=
    exponent_extends_numeral read (.inr ⟨_, rfl⟩) (by decide) exponent ascii
  cases (Numeral.ofChars?_of_spelled spelled).symm.trans
    (rfl : _ = some (⟨true, ['5'], some [], none⟩ : Numeral))
  exact ⟨read, extended fun h => nomatch (Numeral.pointFirst_iff spelled).1 h⟩

/-- A numeral that begins with its point may not be given an exponent, though it is a number without one and with a
digit before the point. -/
theorem point_first_refuses_exponent :
    Value.ofPlain? ".5".toList = .ok (.float (Decimal.nearest false 5 (-1))) ∧
      Value.ofPlain? "0.5e3".toList = .ok (.float (Decimal.nearest false 5 2)) ∧
      Value.ofPlain? ".5e3".toList = .error (.badNumber ".5e3".toList) := ⟨rfl, rfl, rfl⟩

end MiniLisp

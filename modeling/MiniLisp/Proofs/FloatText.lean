import MiniLisp.Proofs.Literals
import MiniLisp.Proofs.RoundTrip
import MiniLisp.Proofs.Shortest
import MiniLisp.Value.Print

/-!
# What the text of a float is read as

A float that is finite is laid out as a numeral with a point or an exponent, which says the shortest decimal of the
float, and so is read as that float. The texts of the others, which are no numbers, begin as no numeral does and are
read as symbols. What is read from a text is thus printed and read back as it is as long as every float in it is finite
(`floats_read_back_if_finite`).

* `Double.eq_ofSignedBits`, `Double.isFinite_iff`: a float by its bits.
* `Numeral.exists_layout`: the numeral that a decimal is laid out as.
* `Value.ofPlain?_text`: what the text of a float stands for.
-/

namespace MiniLisp

/-! ## A float by its bits -/

namespace Double

open Decimal (infinityBits infinityBits_eq twoTo twoTo_eq)
open Float.Model (UnpackedFloat)

/-- The sign bit of a float. -/
def isNegative (x : Float) : Bool := twoTo 63 ≤ x.toBits.toNat

/-- The bits of a float without its sign. -/
def size (x : Float) : Nat := x.toBits.toNat % twoTo 63

/-- A float is told by its bits. -/
theorem eq_ofSignedBits (x : Float) : x = ofSignedBits (isNegative x) (size x) := by
  have bound : x.toBits.toNat < 2 ^ 64 := x.toBits.toNat_lt
  have bits : (if isNegative x then twoTo 63 + size x else size x) = x.toBits.toNat := by
    rw [isNegative, size, twoTo_eq]
    simp only [decide_eq_true_eq]
    split <;> omega
  rw [ofSignedBits, bits, UInt64.ofNat_toNat, Float.ofBits_toBits]

/-- A float is finite if the bits of its exponent are not all ones. -/
theorem isFinite_iff (x : Float) : x.isFinite = true ↔ size x < infinityBits := by
  constructor
  · intro finite
    by_contra large
    rw [infinityBits_eq, not_lt, size, twoTo_eq] at large
    have ones : @UnpackedFloat.unpackExponent .binary64 x.toBits.toBitVec = -1#11 := by
      have bound : x.toBits.toNat < 2 ^ 64 := x.toBits.toNat_lt
      refine BitVec.eq_of_toNat_eq ?_
      simp only [UnpackedFloat.unpackExponent, BitVec.toNat_cast, BitVec.extractLsb_toNat, UInt64.toNat_toBitVec,
        Nat.shiftRight_eq_div_pow]
      change x.toBits.toNat / 2 ^ 52 % 2 ^ 11 = 2047
      omega
    change (UnpackedFloat.unpack .binary64 x.toBits.toBitVec).isFinite = true at finite
    rw [UnpackedFloat.unpack] at finite
    simp only [ones, if_true] at finite
    split at finite <;> cases finite
  · intro small
    rw [eq_ofSignedBits x]
    exact (ofSignedBits_spec _ small).1

end Double

/-! ## Digits -/

namespace Decimal

theorem ofDigits_append (ds es : List Char) : ofDigits (ds ++ es) = ofDigits ds * 10 ^ es.length + ofDigits es := by
  have split : ofDigits (ds ++ es) = Nat.ofDigitChars 10 es (ofDigits ds) := Nat.ofDigitChars_append 0
  rw [split, Nat.ofDigitChars_eq_ofDigitChars_zero, Nat.mul_comm]
  rfl

theorem ofDigits_replicate_zero (n : Nat) : ofDigits (List.replicate n '0') = 0 :=
  Nat.ofDigitChars_replicate_zero

theorem isDigit_replicate_zero (n : Nat) : ∀ c ∈ List.replicate n '0', c.isDigit = true := by
  intro c hc
  rw [List.eq_of_mem_replicate hc]
  rfl

end Decimal

/-! ## Numerals with a point or an exponent -/

namespace Numeral

open Decimal (Scientific Layout digits ofDigits integer)

/-- The number that the digits of a numeral say, without its sign. -/
def number (n : Numeral) : ℚ := ofDigits (n.whole ++ n.fraction.getD []) * 10 ^ n.scale

/-- A text that is read as a float: a numeral of ASCII digits with a point or an exponent. -/
structure Floats (n : Numeral) (chars : List Char) : Prop where
  spelled : n.Spelled chars
  ascii : n.isAscii = true
  float : ¬(n.fraction.isNone ∧ n.exponent.isNone)

variable {n : Numeral} {chars : List Char}

theorem Floats.ofPlain? (h : n.Floats chars) : Value.ofPlain? chars =
    .ok (.float (Decimal.nearest n.negative (ofDigits (n.whole ++ n.fraction.getD [])) n.scale)) := by
  exact Value.ofPlain?_of_literal (.number h.spelled (value?_eq_float h.ascii h.float))

/-- A character that may stand anywhere in a run. -/
def Common (c : Char) : Prop := isPlain c = true ∧ Token.ofMark? c = none

theorem common_digits {ds : List Char} (h : ∀ c ∈ ds, c.isDigit = true) : ∀ c ∈ ds, Common c := fun c hc =>
  have digit := Decimal.isPlain_of_isDigit (h c hc)
  ⟨digit.1, digit.2.1⟩

theorem common_sign {negative : Bool} {s : List Char} (h : Sign negative s) : ∀ c ∈ s, Common c := by
  unfold Common
  cases h <;> simp <;> decide

theorem common_exponent {e : Option (Bool × List Char)} {x : List Char} (h : Exponent e x)
    (he : ∀ p ∈ e, ∀ c ∈ p.2, c.isDigit = true) : ∀ c ∈ x, Common c := by
  cases h with
  | none => exact List.forall_mem_nil _
  | some letter hs =>
    refine List.forall_mem_cons.2 ⟨?_, List.forall_mem_append.2 ⟨common_sign hs, common_digits (he _ rfl)⟩⟩
    rcases letter with rfl | rfl <;> exact ⟨by decide, by decide⟩

/-- A numeral of ASCII digits is a run. -/
theorem Floats.isRun (h : n.Floats chars) : IsRun chars := by
  have common : chars ≠ [] ∧ ∀ c ∈ chars, Common c := by
    obtain ⟨spelled, ascii, -⟩ := h
    obtain ⟨whole, fraction, exponent⟩ := isAscii_iff.1 ascii
    cases spelled with
    | whole hs hne hd hx =>
      refine ⟨by simp [hne], ?_⟩
      simp only [List.forall_mem_append]
      exact ⟨⟨common_sign hs, common_digits whole⟩, common_exponent hx exponent⟩
    | point hs hd hf hx =>
      refine ⟨by simp, ?_⟩
      simp only [List.forall_mem_append, List.forall_mem_cons]
      exact ⟨⟨common_sign hs, common_digits whole⟩, ⟨by decide, by decide⟩, common_digits fraction,
        common_exponent hx exponent⟩
  obtain ⟨hne, all⟩ := common
  obtain ⟨c, r, rfl⟩ := List.exists_cons_of_ne_nil hne
  exact ⟨fun d hd => (all d hd).1, c, r, rfl, (all c List.mem_cons_self).2⟩

/-- How the sign of a number is written. -/
def signText (negative : Bool) : List Char := if negative then ['-'] else []

theorem sign_signText (negative : Bool) : Sign negative (signText negative) := by
  cases negative
  · exact .none
  · exact .minus

/-- An integer is written as an exponent. -/
theorem exponent_integer (i : Int) : Exponent (some (decide (i < 0), digits i.natAbs)) ('e' :: integer i) := by
  have hd : ∀ c ∈ digits i.natAbs, Text.isDigit c = true := fun c hc =>
    Text.isDigit_of_ascii (Decimal.isDigit_of_mem_digits hc)
  have spelled := Exponent.some (.inl rfl) (sign_signText (i < 0)) Nat.toDigits_ne_nil hd
  unfold integer
  unfold signText at spelled
  simp only [decide_eq_true_eq] at spelled
  split at spelled
  · next h => rwa [if_pos h]
  · next h => rwa [if_neg h]

/-- How the digits after a point are written, if there is one. -/
def pointText : Option (List Char) → List Char
  | some fs => '.' :: fs
  | none => []

/-- A numeral with digits before the point. -/
theorem floats_of (negative : Bool) {ds x : List Char} {fs : Option (List Char)} {e : Option (Bool × List Char)}
    (hne : ds ≠ []) (hd : ∀ c ∈ ds, c.isDigit = true) (hf : ∀ c ∈ fs.getD [], c.isDigit = true) (hx : Exponent e x)
    (he : ∀ p ∈ e, ∀ c ∈ p.2, c.isDigit = true) (h : fs ≠ none ∨ e ≠ none) :
    Floats ⟨negative, ds, fs, e⟩ (signText negative ++ (ds ++ pointText fs ++ x)) := by
  have shown {l : List Char} (h : ∀ c ∈ l, c.isDigit = true) : ∀ c ∈ l, Text.isDigit c = true := fun c hc =>
    Text.isDigit_of_ascii (h c hc)
  refine ⟨?_, ?_, by simpa [imp_iff_not_or] using h⟩
  · cases fs with
    | none => simpa [pointText] using Spelled.whole (sign_signText negative) hne (shown hd) hx
    | some fs => simpa [pointText] using Spelled.point (sign_signText negative) (shown hd) (shown hf) hx (.inl hne)
  · exact isAscii_iff.2 ⟨hd, hf, he⟩

/-- Digits on either side of a point are a numeral. -/
theorem floats_point (negative : Bool) {ds fs : List Char} (hne : ds ≠ []) (hd : ∀ c ∈ ds, c.isDigit = true)
    (hf : ∀ c ∈ fs, c.isDigit = true) :
    Floats ⟨negative, ds, some fs, none⟩ (signText negative ++ (ds ++ '.' :: fs)) := by
  simpa [pointText] using @floats_of negative ds [] (some fs) none hne hd hf .none nofun (.inl nofun)

/-- What digits on either side of a point say, with so many zeros among them. -/
theorem exists_point (negative : Bool) {ds fs : List Char} {d zeros : Nat} {e : Int} (hne : ds ≠ [])
    (hd : ∀ c ∈ ds, c.isDigit = true) (hf : ∀ c ∈ fs, c.isDigit = true)
    (value : ofDigits (ds ++ fs) = d * 10 ^ zeros) (place : zeros - (fs.length : Int) = e) :
    ∃ n : Numeral, n.Floats (signText negative ++ (ds ++ '.' :: fs)) ∧ n.negative = negative ∧
      n.number = d * 10 ^ e := by
  refine ⟨_, floats_point negative hne hd hf, rfl, ?_⟩
  have scaled : number ⟨negative, ds, some fs, none⟩ = ofDigits (ds ++ fs) * 10 ^ (-(fs.length : Int)) := by
    simp [number, scale]
  rw [scaled, value, ← place, sub_eq_add_neg, zpow_add₀ (by norm_num), zpow_natCast]
  push_cast
  ring

/-- The point falls before the digits, after them or among them. -/
theorem exists_positional (negative : Bool) (d : Nat) (e : Int) :
    ∃ n : Numeral, n.Floats (signText negative ++ Decimal.positional (digits d) ((digits d).length + e)) ∧
      n.negative = negative ∧ n.number = d * 10 ^ e := by
  have hd : ∀ c ∈ digits d, c.isDigit = true := fun c => Decimal.isDigit_of_mem_digits
  have hne : digits d ≠ [] := Nat.toDigits_ne_nil
  have value := Decimal.ofDigits_digits d
  generalize digits d = ds at *
  have count : 0 < ds.length := List.length_pos_of_ne_nil hne
  unfold Decimal.positional
  split
  · next before =>
    generalize hz : (-(ds.length + e)).toNat = z
    have digits : ofDigits (['0'] ++ (List.replicate z '0' ++ ds)) = d * 10 ^ 0 := by
      rw [Decimal.ofDigits_append, Decimal.ofDigits_append, Decimal.ofDigits_replicate_zero, value]
      simp [ofDigits, Decimal.digitValue]
    refine exists_point negative (by simp) (by simp)
      (List.forall_mem_append.2 ⟨Decimal.isDigit_replicate_zero z, hd⟩) digits ?_
    rw [List.length_append, List.length_replicate]
    omega
  split
  · next after =>
    generalize hz : (ds.length + e).toNat - ds.length = z
    have digits : ofDigits (ds ++ List.replicate z '0' ++ ['0']) = d * 10 ^ (z + 1) := by
      rw [Decimal.ofDigits_append, Decimal.ofDigits_append, Decimal.ofDigits_replicate_zero, value,
        List.length_replicate]
      simp [ofDigits, Decimal.digitValue, pow_succ, mul_assoc]
    refine exists_point negative (by simp [hne])
      (List.forall_mem_append.2 ⟨hd, Decimal.isDigit_replicate_zero z⟩) (by simp) digits ?_
    rw [List.length_singleton]
    omega
  · next notBefore notAfter =>
    have digit {l : List Char} (h : ∀ c ∈ l, c ∈ ds) : ∀ c ∈ l, c.isDigit = true := fun c hc => hd c (h c hc)
    have whole : ds.take (ds.length + e).toNat ≠ [] := by
      rw [Ne, List.take_eq_nil_iff]
      simp only [not_or]
      exact ⟨by omega, hne⟩
    refine @exists_point negative _ _ d 0 e whole (digit fun c => List.mem_of_mem_take)
      (digit fun c => List.mem_of_mem_drop) (by rw [List.take_append_drop, value, pow_zero, mul_one]) ?_
    rw [List.length_drop]
    omega

theorem scale_integer (negative : Bool) (ds : List Char) (fs : Option (List Char)) (i : Int) :
    scale ⟨negative, ds, fs, some (decide (i < 0), digits i.natAbs)⟩ = i - (fs.getD []).length := by
  unfold scale
  dsimp only
  by_cases h : i < 0
  · rw [decide_eq_true h]
    dsimp only
    rw [Decimal.ofDigits_digits]
    omega
  · rw [decide_eq_false h]
    dsimp only
    rw [Decimal.ofDigits_digits]
    omega

/-- A point stands behind the first digit if there are others. -/
theorem exists_exponential (negative : Bool) (d : Nat) (e : Int) :
    ∃ n : Numeral, n.Floats (signText negative ++ Decimal.exponential (digits d) ((digits d).length + e)) ∧
      n.negative = negative ∧ n.number = d * 10 ^ e := by
  have hd : ∀ c ∈ digits d, c.isDigit = true := fun c => Decimal.isDigit_of_mem_digits
  have hne : digits d ≠ [] := Nat.toDigits_ne_nil
  have value := Decimal.ofDigits_digits d
  generalize digits d = ds at *
  generalize hi : (ds.length + e - 1 : Int) = i
  rw [Decimal.exponential, hi]
  obtain ⟨c, rest, rfl⟩ := List.exists_cons_of_ne_nil hne
  have exponent : ∀ p ∈ some (decide (i < 0), digits i.natAbs), ∀ c ∈ p.2, c.isDigit = true := by
    rintro p ⟨⟩ c hc
    exact Decimal.isDigit_of_mem_digits hc
  generalize hfs : (if (c :: rest).length ≤ 1 then none else some rest) = fs
  have shown : (if (c :: rest).length ≤ 1 then [] else '.' :: (c :: rest).drop 1) = pointText fs ∧ fs.getD [] = rest := by
    subst hfs
    split
    · next short => exact ⟨rfl, (List.length_eq_zero_iff.1 (Nat.le_zero.1 (Nat.le_of_succ_le_succ short))).symm⟩
    · exact ⟨rfl, rfl⟩
  have floats := @floats_of negative [c] ('e' :: integer i) fs _ (by simp)
    (fun x hx => hd x (List.mem_cons.2 (.inl (List.mem_singleton.1 hx))))
    (fun x hx => hd x (List.mem_cons_of_mem c (shown.2 ▸ hx))) (exponent_integer i) exponent (.inr nofun)
  rw [shown.1]
  refine ⟨_, floats, rfl, ?_⟩
  have place : i - (rest.length : Int) = e := by
    rw [List.length_cons] at hi
    omega
  rw [number, scale_integer, shown.2, place, List.singleton_append, value]

/-- A decimal is laid out as a numeral that says it. -/
theorem exists_layout (layout : Layout) (negative : Bool) (s : Scientific) :
    ∃ n : Numeral, n.Floats (signText negative ++ layout.scientific s) ∧ n.negative = negative ∧
      n.number = s.value := by
  unfold Layout.scientific
  dsimp only
  split
  · exact exists_positional negative s.digits s.exponent
  · exact exists_exponential negative s.digits s.exponent

end Numeral

/-! ## The text of a float -/

namespace Value

open Decimal (infinityBits twoTo)
open Double (ofSignedBits eq_ofSignedBits isFinite_iff isNegative size)
open Numeral (signText)

/-- What the text of a float stands for: the float if it is finite, and else the symbol of that text. -/
def reread (x : Float) : Value := if x.isFinite then float x else symbol (String.ofList (layout.text x))

/-- The text of a float, by its bits. -/
theorem text_eq (layout : Decimal.Layout) (x : Float) : layout.text x =
    if infinityBits < size x then layout.notANumber
    else signText (isNegative x) ++
      if size x = infinityBits then layout.infinity
      else if size x = 0 then layout.zero
      else layout.scientific (Decimal.shortest (Decimal.Binary.ofBits (size x))) := by
  have sign : (if x.toBits.toNat < twoTo 63 then [] else ['-']) = signText (isNegative x) := by
    simp only [signText, isNegative, decide_eq_true_eq]
    split <;> split <;> first | rfl | omega
  rw [Decimal.Layout.text]
  simp only [sign]
  rw [← size]
  split_ifs <;> rfl

/-- Zero is laid out as a numeral that says it. -/
theorem ofPlain?_zero (negative : Bool) : IsRun (signText negative ++ layout.zero) ∧
    ofPlain? (signText negative ++ layout.zero) = .ok (.float (ofSignedBits negative 0)) := by
  have floats := @Numeral.floats_point negative ['0'] ['0'] (by simp) (by simp) (by simp)
  exact ⟨floats.isRun, floats.ofPlain?⟩

/-- Any other finite number is laid out as the shortest decimal. -/
theorem ofPlain?_scientific (negative : Bool) {bits : Nat} (pos : 0 < bits) (hb : bits < infinityBits) :
    let chars := signText negative ++ layout.scientific (Decimal.shortest (Decimal.Binary.ofBits bits))
    IsRun chars ∧ ofPlain? chars = .ok (.float (ofSignedBits negative bits)) := by
  obtain ⟨n, floats, rfl, number⟩ :=
    Numeral.exists_layout layout negative (Decimal.shortest (Decimal.Binary.ofBits bits))
  have covers := Decimal.shortest_covers (Decimal.Binary.ofBits bits)
  rw [← number] at covers
  refine ⟨floats.isRun, ?_⟩
  rw [floats.ofPlain?, Double.nearest_of_covers n.negative pos hb covers]

/-- The texts of the floats that are not finite are names. -/
theorem isName_text {x : Float} (hx : ¬x.isFinite = true) : IsName (String.ofList (layout.text x)) := by
  rw [isFinite_iff, not_lt] at hx
  have texts : layout.text x ∈ [layout.notANumber, layout.infinity, '-' :: layout.infinity] := by
    rw [text_eq]
    split
    · simp
    · rw [if_pos (by omega), signText]
      split <;> simp
  generalize layout.text x = chars at texts
  simp only [List.mem_cons, List.not_mem_nil, or_false] at texts
  rcases texts with rfl | rfl | rfl <;>
    exact ⟨List.all_eq_true.1 rfl, ⟨_, _, rfl, by decide, by decide, by decide, by decide⟩, by decide, rfl⟩

/-- The text of a float is a run. It stands for the float if that is finite, and else for a symbol. -/
theorem ofPlain?_text (x : Float) : IsRun (layout.text x) ∧ ofPlain? (layout.text x) = .ok (reread x) := by
  by_cases finite : x.isFinite = true
  · have small := (isFinite_iff x).1 finite
    have same := eq_ofSignedBits x
    rw [reread, if_pos finite, text_eq, if_neg small.not_gt, if_neg small.ne]
    split
    · next zero =>
      have read := ofPlain?_zero (isNegative x)
      rwa [← zero, ← same] at read
    · next nonzero =>
      have read := ofPlain?_scientific (isNegative x) (Nat.pos_of_ne_zero nonzero) small
      rwa [← same] at read
  · have name := isName_text finite
    have run := name.isRun
    have read := ofPlain?_symbol name
    rw [String.toList_ofList] at run read
    rw [reread, if_neg finite]
    exact ⟨run, read⟩

theorem spells_text (x : Float) : Spells (layout.text x) [reread x] :=
  spells_run (ofPlain?_text x).1 (ofPlain?_text x).2

theorem reread_eq_float_iff (x : Float) : reread x = float x ↔ x.isFinite = true := by
  unfold reread
  split
  · next finite => exact iff_of_true rfl finite
  · next infinite => exact iff_of_false nofun infinite

end Value

/-! ## Floats that print and read back -/

/-- **Printing and reading floats.** The text of a float reads back as that float if it is finite, and else as the
symbol of the text. So what is read from a text, printed with the entries of its maps in any order, reads back with
symbols for the floats that are not finite: as it is, if and only if it has none. -/
theorem floats_read_back_if_finite (m : Machine) :
    (∀ x : Float, ∃ t, m.text? .readable (.float x) = some t ∧
      Value.read? t.toList = .ok (if x.isFinite then .float x else .symbol t)) ∧
    (∀ (s : List Char) (v w : Value), Value.read? s = .ok v → w.Reorders v →
      ∃ t, m.text? .readable w = some t ∧ Value.read? t.toList = .ok (v.mapFloats Value.reread) ∧
        (v.mapFloats Value.reread = v ↔ ∀ x, v.FloatIn x → x.isFinite = true)) := by
  constructor
  · intro x
    have read := read?_of_spells (Value.spells_text x)
    exact ⟨String.ofList (layout.text x), rfl, by rwa [String.toList_ofList]⟩
  · intro s v w h hw
    have legible := Value.legible_read? h
    obtain ⟨t, ht, spells⟩ := Value.spells_mapFloats legible (fun x _ => Value.spells_text x) w hw
    refine ⟨String.ofList t, by rw [Machine.text?, ht]; rfl, ?_, ?_⟩
    · rw [String.toList_ofList]
      exact read?_of_spells spells
    · simp only [legible.mapFloats_eq_self_iff, Value.reread_eq_float_iff]

/-- A tenth beside a numeral beyond every float. -/
theorem floats_read_back_if_finite_beside_infinity :
    let tenth := Decimal.nearest false 1 (-1)
    let huge := Decimal.nearest false 1 999
    let v := Value.vector [.float tenth, .list [.float huge]]
    Value.read? "[0.1 (1e999)]".toList = .ok v ∧ v.Reorders v ∧
      ∃ t, Machine.empty.text? .readable v = some t ∧
        Value.read? t.toList = .ok (.vector [.float tenth, .list [.symbol "inf"]]) := by
  intro tenth huge v
  have spellsTenth : Spells "0.1".toList [.float tenth] :=
    spells_run ⟨List.all_eq_true.1 rfl, _, _, rfl, rfl⟩ rfl
  have spellsHuge : Spells "1e999".toList [.float huge] :=
    spells_run ⟨List.all_eq_true.1 rfl, _, _, rfl, rfl⟩ rfl
  have inner := spells_bracket (b := .round) (v := .list [.float huge]) spellsHuge rfl
  have read : Value.read? "[0.1 (1e999)]".toList = .ok v :=
    read?_of_spells (spells_bracket (b := .square) (spells_append spellsTenth inner) rfl)
  have finite : tenth.isFinite = true := by decide +kernel
  have infinite : huge.isFinite = false := by decide +kernel
  have inf : String.ofList (layout.text huge) = "inf" := by decide +kernel
  obtain ⟨t, ht, back, -⟩ := (floats_read_back_if_finite Machine.empty).2 _ v v read (.refl v)
  refine ⟨read, .refl v, t, ht, ?_⟩
  simpa [v, Value.mapFloats, Value.mapFloatsItems, Value.reread, finite, infinite, inf] using back

/-- The float that a numeral beyond every float is read as is printed as a symbol. -/
theorem infinity_reads_back_as_symbol :
    let huge := Decimal.nearest false 1 999
    Value.read? "1e999".toList = .ok (.float huge) ∧ Machine.empty.text? .readable (.float huge) = some "inf" ∧
      Value.read? "inf".toList = .ok (.symbol "inf") := by
  have spells : Spells "1e999".toList [.float (Decimal.nearest false 1 999)] :=
    spells_run ⟨List.all_eq_true.1 rfl, _, _, rfl, rfl⟩ rfl
  exact ⟨read?_of_spells spells, by decide +kernel, by cbv⟩

end MiniLisp

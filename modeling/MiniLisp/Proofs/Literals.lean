import Mathlib
import MiniLisp.Proofs.Entries
import MiniLisp.Proofs.Plain

/-!
# How literals are written

The rules for literals, stated apart from the functions that read them, and the faults of what keeps to no rule:

* contents of quotes (`Text.Quoted.Spells`, `Text.Quoted.Faulty`), read by `Text.Quoted.decode`;
* plain runs (`Numeral.Spelled`, `Literal`, `Malformed`), read by `Value.ofPlain?`;
* values in turn as keys and values (`Entries.SpelledBy`, `Entries.Misspelled`), read by `Entries.ofItems?`.

Each function gives what the rules say, and the fault where they say nothing.
-/

namespace MiniLisp

/-! ## Contents of quotes -/

namespace Text.Quoted

/-- Contents of quotes and the text that they stand for. There are three escapes, every other character but the
backslash stands for itself. -/
inductive Spells : List Char → List Char → Prop
  | nil : Spells [] []
  | char {c : Char} {r s : List Char} (hc : c ≠ '\\') (h : Spells r s) : Spells (c :: r) (c :: s)
  | backslash {r s : List Char} (h : Spells r s) : Spells ('\\' :: '\\' :: r) ('\\' :: s)
  | quote {r s : List Char} (h : Spells r s) : Spells ('\\' :: '"' :: r) ('"' :: s)
  | lineBreak {r s : List Char} (h : Spells r s) : Spells ('\\' :: 'n' :: r) ('\n' :: s)

/-- Contents of quotes that stand for no text, by the first backslash that escapes nothing. -/
inductive Faulty : List Char → Fault → Prop
  | unknownEscape {r s : List Char} {l : Char} (h : Spells r s) (hl : l ≠ '\\' ∧ l ≠ '"' ∧ l ≠ 'n')
      (rest : List Char) : Faulty (r ++ '\\' :: l :: rest) (.unknownEscape l)
  | loneBackslash {r s : List Char} (h : Spells r s) : Faulty (r ++ ['\\']) .loneBackslash

variable {r s : List Char} {l c : Char} {fault : Fault}

theorem meaning?_eq_none_iff : meaning? l = none ↔ l ≠ '\\' ∧ l ≠ '"' ∧ l ≠ 'n' := by
  unfold meaning?
  split <;> simp_all

/-- An escape in front spells the character it means. -/
theorem Spells.escape (hl : meaning? l = some c) (h : Spells r s) : Spells ('\\' :: l :: r) (c :: s) := by
  unfold meaning? at hl
  split at hl <;> cases hl
  · exact .backslash h
  · exact .quote h
  · exact .lineBreak h

/-- Contents that stand for a text are read up to their end. -/
theorem decode_append (h : Spells r s) (rest : List Char) : decode (r ++ rest) = (decode rest).map (s ++ ·) := by
  have step (c : Char) (s : List Char) :
      ((decode rest).map (s ++ ·)).map (c :: ·) = (decode rest).map (c :: s ++ ·) := by cases decode rest <;> rfl
  induction h with
  | nil => cases h : decode rest <;> simp [h, Except.map]
  | @char c r s hc h ih => rw [List.cons_append, decode_cons hc, ih, step]
  | @backslash r s h ih => rw [List.cons_append, List.cons_append, decode_escape (c := '\\') rfl, ih, step]
  | @quote r s h ih => rw [List.cons_append, List.cons_append, decode_escape (c := '"') rfl, ih, step]
  | @lineBreak r s h ih => rw [List.cons_append, List.cons_append, decode_escape (c := '\n') rfl, ih, step]

/-- Contents that spell a text are decoded to it. -/
theorem decode_of_spells (h : Spells r s) : decode r = .ok s := by
  have all := decode_append h []
  rw [List.append_nil] at all
  simpa [decode, Except.map] using all

/-- Contents with a fault are refused with that fault. -/
theorem decode_of_faulty (h : Faulty r fault) : decode r = .error fault := by
  cases h with
  | unknownEscape h hl rest =>
    rw [decode_append h]
    simp [decode, meaning?_eq_none_iff.2 hl, Except.map]
  | loneBackslash h =>
    rw [decode_append h]
    rfl

/-- A fault behind a character that stands for itself, or behind an escape. -/
theorem Faulty.behind (pre : List Char) (hpre : ∀ {r s}, Spells r s → ∃ s', Spells (pre ++ r) s')
    (h : Faulty r fault) : Faulty (pre ++ r) fault := by
  cases h with
  | unknownEscape h hl rest =>
    obtain ⟨_, h⟩ := hpre h
    simpa using Faulty.unknownEscape h hl rest
  | loneBackslash h =>
    obtain ⟨_, h⟩ := hpre h
    simpa using Faulty.loneBackslash h

/-- What contents of quotes are read as keeps to the rules, and so does the fault that is found in them. -/
theorem decode_spec (r : List Char) :
    match decode r with
    | .ok s => Spells r s
    | .error fault => Faulty r fault := by
  fun_induction decode r with
  | case1 => exact .nil
  | case2 => exact Faulty.loneBackslash .nil
  | case3 l r c hl ih =>
    cases hr : decode r with
    | ok s =>
      rw [hr] at ih
      exact .escape hl ih
    | error fault =>
      rw [hr] at ih
      exact Faulty.behind ['\\', l] (fun h => ⟨_, .escape hl h⟩) ih
  | case4 l r hl => exact Faulty.unknownEscape .nil (meaning?_eq_none_iff.1 hl) r
  | case5 c r hlone hescape ih =>
    have hc : c ≠ '\\' := by
      rintro rfl
      cases r with
      | nil => exact hlone rfl rfl
      | cons l r => exact hescape l r rfl rfl
    cases hr : decode r with
    | ok s =>
      rw [hr] at ih
      exact .char hc ih
    | error fault =>
      rw [hr] at ih
      exact Faulty.behind [c] (fun h => ⟨_, .char hc h⟩) ih

/-- The decoder accepts exactly the spellings. -/
theorem decode_eq_ok_iff : decode r = .ok s ↔ Spells r s := by
  refine ⟨fun h => ?_, decode_of_spells⟩
  have spec := decode_spec r
  rwa [h] at spec

theorem decode_eq_error_iff : decode r = .error fault ↔ Faulty r fault := by
  refine ⟨fun h => ?_, decode_of_faulty⟩
  have spec := decode_spec r
  rwa [h] at spec

end Text.Quoted

/-! ## Numerals -/

namespace Numeral

/-- How the sign of a numeral is written. -/
inductive Sign : Bool → List Char → Prop
  | minus : Sign true ['-']
  | plus : Sign false ['+']
  | none : Sign false []

/-- How the exponent of a numeral is written, if there is one. -/
inductive Exponent : Option (Bool × List Char) → List Char → Prop
  | none : Exponent none []
  | some {e : Char} {negative : Bool} {s ds : List Char} (he : e = 'e' ∨ e = 'E') (hs : Sign negative s)
      (hne : ds ≠ []) (hd : ∀ c ∈ ds, Text.isDigit c = true) : Exponent (some (negative, ds)) (e :: (s ++ ds))

/-- How a numeral is written: digits, or digits around a point, where those on one side of it may be missing, but
not those before it if an exponent follows. -/
inductive Spelled : Numeral → List Char → Prop
  | whole {negative : Bool} {s ds x : List Char} {e : Option (Bool × List Char)} (hs : Sign negative s)
      (hne : ds ≠ []) (hd : ∀ c ∈ ds, Text.isDigit c = true) (hx : Exponent e x) :
      Spelled ⟨negative, ds, none, e⟩ (s ++ ds ++ x)
  | point {negative : Bool} {s ds fs x : List Char} {e : Option (Bool × List Char)} (hs : Sign negative s)
      (hd : ∀ c ∈ ds, Text.isDigit c = true) (hf : ∀ c ∈ fs, Text.isDigit c = true) (hx : Exponent e x)
      (hne : ds ≠ [] ∨ fs ≠ [] ∧ e = .none) : Spelled ⟨negative, ds, some fs, e⟩ (s ++ ds ++ '.' :: (fs ++ x))

/-- How a text begins that begins as numerals do. -/
inductive Begins : List Char → Prop
  | digit {negative : Bool} {s : List Char} {c : Char} (hs : Sign negative s) (hc : Text.isDigit c = true)
      (rest : List Char) : Begins (s ++ c :: rest)
  | point {negative : Bool} {s : List Char} {c : Char} (hs : Sign negative s) (hc : Text.isDigit c = true)
      (rest : List Char) : Begins (s ++ '.' :: c :: rest)

variable {chars s body : List Char} {negative : Bool} {n : Numeral}

/-- A sign is taken off the front, if there is one. -/
theorem sign_spec (chars : List Char) : ∃ s, Sign (sign chars).1 s ∧ chars = s ++ (sign chars).2 := by
  unfold sign
  split
  · exact ⟨_, .minus, rfl⟩
  · exact ⟨_, .plus, rfl⟩
  · exact ⟨_, .none, rfl⟩

theorem sign_append (hs : Sign negative s) (body : List Char) (hb : ∀ c ∈ body.head?, c ≠ '-' ∧ c ≠ '+') :
    sign (s ++ body) = (negative, body) := by
  cases hs with
  | minus => rfl
  | plus => rfl
  | none =>
    cases body with
    | nil => rfl
    | cons c r =>
      obtain ⟨hm, hp⟩ := hb c rfl
      simp [sign, hm, hp]

theorem ne_sign_of_isDigit {c : Char} (h : Text.isDigit c = true) : c ≠ '-' ∧ c ≠ '+' := by
  constructor <;> rintro rfl <;> revert h <;> decide

/-- The exponent is what is left after the digits, all of it or nothing. -/
theorem exponent?_iff {e : Option (Bool × List Char)} {x : List Char} : exponent? x = some e ↔ Exponent e x := by
  constructor
  · intro h
    cases x with
    | nil => cases h; exact .none
    | cons c r =>
      obtain ⟨s, hs, hr⟩ := sign_spec r
      simp only [exponent?] at h
      split at h
      · next hds =>
        obtain ⟨hc, hne, hall⟩ := hds
        cases h
        have spelled := Exponent.some hc hs hne (List.all_eq_true.1 hall)
        rwa [← hr] at spelled
      · cases h
  · rintro (_ | ⟨he, hs, hne, hd⟩)
    · rfl
    · next c negative s ds =>
      have unsigned : ∀ c ∈ ds.head?, c ≠ '-' ∧ c ≠ '+' := fun c hc =>
        ne_sign_of_isDigit (hd c (List.mem_of_mem_head? hc))
      simp only [exponent?, sign_append hs ds unsigned, he, true_and]
      rw [if_pos ⟨hne, List.all_eq_true.2 hd⟩]

/-- An exponent begins with none of the characters that come before it. -/
theorem Exponent.head {e : Option (Bool × List Char)} {x : List Char} (h : Exponent e x) :
    ∀ c ∈ x.head?, Text.isDigit c = false ∧ c ≠ '.' ∧ c ≠ '-' ∧ c ≠ '+' := by
  cases h with
  | none => simp
  | some he =>
    simp only [List.head?_cons, Option.mem_def, Option.some.injEq, forall_eq']
    rcases he with rfl | rfl <;> decide

/-- Every text begins with digits, perhaps none. -/
theorem exists_digits (l : List Char) : ∃ ds, l.takeWhile Text.isDigit = ds ∧ (∀ c ∈ ds, Text.isDigit c = true) ∧
    l = ds ++ l.dropWhile Text.isDigit :=
  ⟨_, rfl, fun _ => List.mem_takeWhile_imp, List.takeWhile_append_dropWhile.symm⟩

theorem spelled_of_ofChars? (h : ofChars? chars = some n) : Spelled n chars := by
  obtain ⟨s, hs, hchars⟩ := sign_spec chars
  obtain ⟨ds, htake, hd, hbody⟩ := exists_digits (sign chars).2
  simp only [ofChars?, htake] at h
  rw [hchars, hbody, ← List.append_assoc]
  split at h
  · next r hr =>
    obtain ⟨fs, htake', hf, hrest⟩ := exists_digits r
    rw [htake'] at h
    rw [hr, hrest]
    split at h
    · cases h
    · next he =>
      split at h
      · cases h
      · next hne =>
        cases h
        exact .point hs hd hf (exponent?_iff.1 he) (by tauto)
    · next e _ he =>
      split at h
      · cases h
      · next hne =>
        cases h
        exact .point hs hd hf (exponent?_iff.1 he) (.inl hne)
  · split at h
    · cases h
    · next hne =>
      obtain ⟨e, he, rfl⟩ := Option.map_eq_some_iff.1 h
      exact .whole hs hne hd (exponent?_iff.1 he)

theorem ofChars?_of_spelled (h : Spelled n chars) : ofChars? chars = some n := by
  cases h with
  | @whole negative s ds x e hs hne hd hx =>
    obtain ⟨c, ds, rfl⟩ := List.exists_cons_of_ne_nil hne
    obtain ⟨htake, hdrop⟩ := span_append hd fun c hc => (hx.head c hc).1
    have hsign : sign (s ++ ((c :: ds) ++ x)) = (negative, (c :: ds) ++ x) :=
      sign_append hs _ (by simpa using ne_sign_of_isDigit (hd c List.mem_cons_self))
    simp only [ofChars?, List.append_assoc, hsign, htake, hdrop]
    split
    · next r => exact absurd rfl (hx.head '.' rfl).2.1
    · simp [exponent?_iff.2 hx]
  | @point negative s ds fs x e hs hd hf hx hne =>
    obtain ⟨htake, hdrop⟩ := @span_append _ ds ('.' :: (fs ++ x)) hd (by simp; decide)
    obtain ⟨htake', hdrop'⟩ := span_append hf fun c hc => (hx.head c hc).1
    have hsign : sign (s ++ (ds ++ '.' :: (fs ++ x))) = (negative, ds ++ '.' :: (fs ++ x)) := by
      refine sign_append hs _ ?_
      cases ds with
      | nil => simp
      | cons c ds => simpa using ne_sign_of_isDigit (hd c List.mem_cons_self)
    simp only [ofChars?, List.append_assoc, hsign, htake, hdrop, htake', hdrop', exponent?_iff.2 hx]
    cases e with
    | none => exact if_neg (by tauto)
    | some e => exact if_neg (by simpa using hne)

/-- Numerals are taken apart exactly as they are spelled. -/
theorem ofChars?_iff : ofChars? chars = some n ↔ Spelled n chars := ⟨spelled_of_ofChars?, ofChars?_of_spelled⟩

theorem isAscii_iff : n.isAscii = true ↔ (∀ c ∈ n.whole, c.isDigit = true) ∧
    (∀ c ∈ n.fraction.getD [], c.isDigit = true) ∧ ∀ e ∈ n.exponent, ∀ c ∈ e.2, c.isDigit = true := by
  obtain ⟨negative, whole, fraction, exponent⟩ := n
  cases exponent <;> simp [isAscii, and_assoc]

/-- With a point or an exponent, ASCII digits are a float. -/
theorem value?_eq_float (ha : n.isAscii = true) (hn : ¬(n.fraction.isNone ∧ n.exponent.isNone)) :
    n.value? = some (.float
      (Decimal.nearest n.negative (Decimal.ofDigits (n.whole ++ n.fraction.getD [])) n.scale)) := by
  rw [value?, ha, Bool.not_true, if_neg Bool.false_ne_true, if_neg hn]

/-- A numeral stands for an integer or for a float. -/
theorem value?_eq_some {v : Value} (h : n.value? = some v) : (∃ i, v = .int i) ∨ ∃ x, v = .float x := by
  unfold value? at h
  split at h
  · cases h
  split at h
  · obtain ⟨i, -, rfl⟩ := Option.map_eq_some_iff.1 h
    exact .inl ⟨i, rfl⟩
  · cases h
    exact .inr ⟨_, rfl⟩

/-- A token that begins like a number, and so may not be a symbol. -/
theorem startsLike_iff : startsLike chars = true ↔ Begins chars := by
  constructor
  · intro h
    obtain ⟨s, hs, hchars⟩ := sign_spec chars
    unfold startsLike at h
    split at h
    · next c r hr =>
      rw [hchars, hr]
      exact .point hs h r
    · next c r _ hr =>
      rw [hchars, hr]
      exact .digit hs h r
    · cases h
  · rintro (⟨hs, hc, rest⟩ | ⟨hs, hc, rest⟩)
    · next c =>
      have hdot : c ≠ '.' := by rintro rfl; revert hc; decide
      simp only [startsLike, sign_append hs (c :: rest) (by simpa using ne_sign_of_isDigit hc)]
      split
      · next he => exact absurd (List.cons.inj he).1 hdot
      · next he => exact (List.cons.inj he).1 ▸ hc
      · next he => cases he
    · next c => simp only [startsLike, sign_append hs ('.' :: c :: rest) (by simp), hc]

end Numeral

/-! ## Plain runs -/

/-- A plain run and what it stands for. -/
inductive Literal : List Char → Value → Prop
  | number {chars : List Char} {n : Numeral} {v : Value} (h : n.Spelled chars) (hv : n.value? = some v) :
      Literal chars v
  | nil : Literal "nil".toList .nil
  | true : Literal "true".toList (.bool true)
  | false : Literal "false".toList (.bool false)
  | keyword (name : List Char) : Literal (':' :: name) (.keyword (String.ofList name))
  | symbol {chars : List Char} (hn : ¬ Numeral.Begins chars)
      (hr : chars ∉ ["nil".toList, "true".toList, "false".toList]) (hk : chars.head? ≠ some ':') :
      Literal chars (.symbol (String.ofList chars))

/-- A plain run that stands for nothing: it begins as numerals do and is no numeral, or one without a value. -/
def Malformed (chars : List Char) : Prop :=
  Numeral.Begins chars ∧ ∀ n : Numeral, n.Spelled chars → n.value? = none

namespace Value

variable {chars : List Char} {v : Value} {fault : ReadError}

/-- Any other token is a literal by the rule for its first character. -/
theorem ofName_spec (h : ¬ Numeral.Begins chars) : Literal chars (ofName chars) := by
  unfold ofName
  split
  · exact .symbol h (by decide) (by simp)
  · exact .keyword _
  · next hempty hkeyword =>
    split_ifs with hnil htrue hfalse
    · exact hnil ▸ .nil
    · exact htrue ▸ .true
    · exact hfalse ▸ .false
    · refine .symbol h (by simp only [List.mem_cons, List.not_mem_nil]; tauto) fun hk => ?_
      obtain ⟨r, rfl⟩ := List.head?_eq_some_iff.1 hk
      exact hkeyword r rfl

/-- What a plain run is read as keeps to the rules; where it is read as nothing, it is malformed. -/
theorem ofPlain?_spec (chars : List Char) :
    match ofPlain? chars with
    | .ok v => Literal chars v
    | .error fault => fault = .badNumber chars ∧ Malformed chars := by
  unfold ofPlain?
  cases hn : Numeral.ofChars? chars with
  | some n =>
    have spelled := Numeral.ofChars?_iff.1 hn
    have begins : Numeral.Begins chars := Numeral.startsLike_iff.1 (Numeral.startsLike_of_ofChars? hn)
    cases hv : n.value? with
    | some v =>
      simp only [hv]
      exact .number spelled hv
    | none =>
      simp only [hv, true_and]
      refine ⟨begins, fun n' h' => ?_⟩
      have same : n = n' := Option.some.inj (hn.symm.trans (Numeral.ofChars?_iff.2 h'))
      rwa [← same]
  | none =>
    by_cases hs : Numeral.startsLike chars = true
    all_goals simp only [hs, if_true, Bool.false_eq_true, if_false]
    · exact ⟨trivial, Numeral.startsLike_iff.1 hs, fun n h => by rw [Numeral.ofChars?_iff.2 h] at hn; cases hn⟩
    · exact ofName_spec fun h => hs (Numeral.startsLike_iff.2 h)

theorem ofPlain?_of_literal (h : Literal chars v) : ofPlain? chars = .ok v := by
  cases h with
  | number h hv => simp only [ofPlain?, Numeral.ofChars?_iff.2 h, hv]
  | nil => rfl
  | true => rfl
  | false => rfl
  | keyword name => simpa using ofPlain?_keyword (String.ofList name)
  | symbol hn hr hk =>
    rw [ofPlain?_eq_ofName (by simpa using fun h => hn (Numeral.startsLike_iff.1 h))]
    simp only [List.mem_cons, List.not_mem_nil, or_false, not_or] at hr
    obtain ⟨hnil, htrue, hfalse⟩ := hr
    unfold ofName
    split
    · rfl
    · exact absurd rfl hk
    · rw [if_neg hnil, if_neg htrue, if_neg hfalse]

/-- Plain tokens are read exactly by the rules for literals. -/
theorem ofPlain?_eq_ok_iff : ofPlain? chars = .ok v ↔ Literal chars v := by
  refine ⟨fun h => ?_, ofPlain?_of_literal⟩
  have spec := ofPlain?_spec chars
  rwa [h] at spec

/-- A plain token is refused exactly when it begins like a number and is none. -/
theorem ofPlain?_eq_error_iff : ofPlain? chars = .error fault ↔ fault = .badNumber chars ∧ Malformed chars := by
  have spec := ofPlain?_spec chars
  constructor
  · intro h
    rwa [h] at spec
  · rintro ⟨rfl, begins, valueless⟩
    cases hp : ofPlain? chars with
    | error fault =>
      rw [hp] at spec
      rw [spec.1]
    | ok v =>
      rw [hp] at spec
      cases spec with
      | number h hv => rw [valueless _ h] at hv; cases hv
      | symbol hn => exact absurd begins hn
      | keyword name =>
        have plain : Numeral.startsLike (':' :: name) = true := Numeral.startsLike_iff.2 begins
        exact absurd plain (by simp [Numeral.startsLike, Numeral.sign]; decide)
      | _ => exact absurd (Numeral.startsLike_iff.2 begins) (by decide)

end Value

/-! ## Entries of maps -/

namespace Entries

variable {vs : List Value} {es fs : Entries} {fault : MapError}

/-- The entries that values in turn spell: of the values for a key the last one counts. -/
def SpelledBy (vs : List Value) (es : Entries) : Prop :=
  ∃ ps : Entries, vs = ps.items ∧ es.Ordered ∧ ∀ k, es.find? k = find? k ps.reverse

/-- Values in turn that spell no entries: one too many, or one that is no key where a key is due. -/
inductive Misspelled : List Value → MapError → Prop
  | missingValue {vs : List Value} (h : vs.length % 2 = 1) : Misspelled vs .missingValue
  | badKey (ps : Entries) {k : Value} (hk : Key.ofValue? k = none) (v : Value) {rest : List Value}
      (h : rest.length % 2 = 0) : Misspelled (ps.items ++ k :: v :: rest) .badKey

/-- The first list of entries goes before the second. -/
theorem find?_append (k : Key) (es fs : Entries) :
    find? k (es ++ fs) = (find? k es).or (find? k fs) := by
  induction es with
  | nil => rfl
  | cons e es ih =>
    simp only [List.cons_append, find?]
    split
    · rfl
    · exact ih

/-- What is put in is found, of several values for a key the last one. -/
theorem find?_insertAll (k : Key) (more es : Entries) :
    (es.insertAll more).find? k = (find? k more.reverse).or (es.find? k) := by
  induction more generalizing es with
  | nil => rfl
  | cons e more ih =>
    have step : (es.insert e.1 e.2).find? k = (find? k [e]).or (es.find? k) := by
      by_cases hk : e.1 = k
      · subst hk
        simp [find?, find?_insert_self]
      · simp [find?, hk, find?_insert_of_ne (Ne.symm hk)]
    calc (es.insertAll (e :: more)).find? k = (find? k more.reverse).or ((es.insert e.1 e.2).find? k) := ih _
      _ = ((find? k more.reverse).or (find? k [e])).or (es.find? k) := by rw [step, Option.or_assoc]
      _ = (find? k (e :: more).reverse).or (es.find? k) := by rw [List.reverse_cons, find?_append]

theorem find?_eq_none_of_before {k : Key} (h : ∀ e ∈ es, k.before e.1 = true) : es.find? k = none := by
  induction es with
  | nil => rfl
  | cons e es ih =>
    have hne : e.1 ≠ k := by
      rintro rfl
      have := h e List.mem_cons_self
      rw [Key.before_irrefl] at this
      cases this
    simp only [find?, if_neg hne]
    exact ih fun e he => h e (List.mem_cons_of_mem _ he)

/-- Ordered entries are told by what is found in them. -/
theorem eq_of_find? (he : es.Ordered) (hf : fs.Ordered) (h : ∀ k, es.find? k = fs.find? k) : es = fs := by
  -- the first key of the one is found in the other, and no key of it stands before
  have first {k : Key} {v : Value} (fs : Entries) (hf : fs.Ordered) (h : fs.find? k = some v) :
      ∃ e fs', fs = e :: fs' ∧ ¬ k.before e.1 := by
    cases fs with
    | nil => cases h
    | cons e fs' =>
      refine ⟨e, fs', rfl, fun hb => ?_⟩
      obtain ⟨hfirst, -⟩ := List.pairwise_cons.1 hf
      have none : find? k (e :: fs') = none := find?_eq_none_of_before fun f hmem => by
        rcases List.mem_cons.1 hmem with rfl | hmem
        · exact hb
        · exact Key.before_trans hb (hfirst f hmem)
      rw [none] at h
      cases h
  induction es generalizing fs with
  | nil =>
    cases fs with
    | nil => rfl
    | cons f fs => simpa [find?] using h f.1
  | cons e es ih =>
    obtain ⟨k, v⟩ := e
    have hk : fs.find? k = some v := by rw [← h]; simp [find?]
    obtain ⟨⟨l, w⟩, fs', rfl, hkl⟩ := first fs hf hk
    have hl : find? l ((k, v) :: es) = some w := by rw [h]; simp [find?]
    obtain ⟨f, es', hes, hlk⟩ := first _ he hl
    cases hes
    have same : k = l := by
      by_contra hne
      exact (Key.before_or hne).elim hkl hlk
    subst same
    have hvw : v = w := by simpa [find?] using hk.symm
    subst hvw
    obtain ⟨hes, hes'⟩ := List.pairwise_cons.1 he
    obtain ⟨hfs, hfs'⟩ := List.pairwise_cons.1 hf
    have rest : ∀ l, find? l es = find? l fs' := fun l => by
      by_cases hl : k = l
      · subst hl
        rw [find?_eq_none_of_before hes, find?_eq_none_of_before hfs]
      · simpa [find?, hl] using h l
    rw [ih hes' hfs' rest]

/-- Values in turn come to an end, to one value too many or to one that is no key. -/
theorem pairs_spec (vs : List Value) :
    match pairs vs with
    | .ok ps => vs = ps.items
    | .error .missingValue => vs.length % 2 = 1
    | .error .badKey => ∃ (ps : Entries) (k v : Value) (rest : List Value),
        vs = ps.items ++ k :: v :: rest ∧ Key.ofValue? k = none := by
  fun_induction pairs vs with
  | case1 => rfl
  | case2 => rfl
  | case3 k v rest hk => exact ⟨[], k, v, rest, rfl, hk⟩
  | case4 k v rest k' hk ih =>
    have hkey : k'.toValue = k := Key.toValue_of_ofValue? hk
    cases hr : pairs rest with
    | ok ps =>
      rw [hr] at ih
      simp only [Except.map] at ih ⊢
      rw [ih, ← hkey]
      rfl
    | error fault =>
      rw [hr] at ih
      cases fault with
      | missingValue =>
        simp only [Except.map, List.length_cons] at ih ⊢
        omega
      | badKey =>
        obtain ⟨ps, l, w, rest', hrest, hl⟩ := ih
        exact ⟨(k', v) :: ps, l, w, rest', by rw [hrest, ← hkey]; rfl, hl⟩

/-- What values in turn are read as keeps to the rules, and so does the fault that is found in them. -/
theorem ofItems?_spec (vs : List Value) :
    match ofItems? vs with
    | .ok es => SpelledBy vs es
    | .error fault => Misspelled vs fault := by
  unfold ofItems?
  split_ifs with hodd
  · exact .missingValue hodd
  · have spec := pairs_spec vs
    cases hp : pairs vs with
    | ok ps =>
      rw [hp] at spec
      exact ⟨ps, spec, ordered_insertAll ps List.Pairwise.nil, fun k => by simp [find?_insertAll, find?]⟩
    | error fault =>
      rw [hp] at spec
      cases fault with
      | missingValue => exact absurd spec hodd
      | badKey =>
        obtain ⟨ps, k, v, rest, rfl, hk⟩ := spec
        refine .badKey ps hk v ?_
        simp only [List.length_append, length_items, List.length_cons] at hodd
        omega

/-- Items that spell entries make the map of them, the last one of each key. -/
theorem ofItems?_of_spelledBy (h : SpelledBy vs es) : ofItems? vs = .ok es := by
  obtain ⟨ps, rfl, ordered, found⟩ := h
  rw [ofItems?_items]
  refine congrArg Except.ok (eq_of_find? (ordered_insertAll ps List.Pairwise.nil) ordered fun k => ?_)
  simp [find?_insertAll, find?, found]

theorem pairs_badKey (ps : Entries) {k : Value} (hk : Key.ofValue? k = none) (v : Value) (rest : List Value) :
    pairs (ps.items ++ k :: v :: rest) = .error .badKey := by
  induction ps with
  | nil => simp [items, pairs, hk]
  | cons p ps ih =>
    simp only [items, List.flatMap_cons, List.cons_append, List.nil_append, pairs, Key.ofValue?_toValue] at ih ⊢
    rw [ih]
    rfl

/-- Other items are refused by the fault that the rules give. -/
theorem ofItems?_of_misspelled (h : Misspelled vs fault) : ofItems? vs = .error fault := by
  cases h with
  | missingValue h => simp [ofItems?, h]
  | @badKey ps k hk v rest h =>
    have even : (ps.items ++ k :: v :: rest).length % 2 ≠ 1 := by
      simp only [List.length_append, length_items, List.length_cons]
      omega
    simp only [ofItems?, if_neg even, pairs_badKey ps hk v rest, Except.map]

/-- Items make a map exactly when they spell its entries. -/
theorem ofItems?_eq_ok_iff : ofItems? vs = .ok es ↔ SpelledBy vs es := by
  refine ⟨fun h => ?_, ofItems?_of_spelledBy⟩
  have spec := ofItems?_spec vs
  rwa [h] at spec

theorem ofItems?_eq_error_iff : ofItems? vs = .error fault ↔ Misspelled vs fault := by
  refine ⟨fun h => ?_, ofItems?_of_misspelled⟩
  have spec := ofItems?_spec vs
  rwa [h] at spec

end Entries

end MiniLisp

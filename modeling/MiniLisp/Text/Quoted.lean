/-!
# Quoted text

How text is written between quotes: a quote, a backslash and a line break are each written as a backslash and a
letter, every other character stands for itself.

* `decode_encode`: what is written reads back.
* `encode_injective`: distinct texts are written differently.
-/

namespace MiniLisp.Text.Quoted

/-- The letter that stands for a character after a backslash. -/
def letter? : Char → Option Char
  | '\\' => some '\\'
  | '"' => some '"'
  | '\n' => some 'n'
  | _ => none

/-- The character that a letter after a backslash stands for. -/
def meaning? : Char → Option Char
  | '\\' => some '\\'
  | '"' => some '"'
  | 'n' => some '\n'
  | _ => none

/-- Why contents of quotes stand for no text. -/
inductive Fault
  /-- A backslash before a letter that has no meaning. -/
  | unknownEscape (letter : Char)
  /-- A backslash at the end. -/
  | loneBackslash
  deriving DecidableEq

/-- What is written between the quotes. -/
def encode : List Char → List Char
  | [] => []
  | c :: r =>
    match letter? c with
    | some l => '\\' :: l :: encode r
    | none => c :: encode r

/-- The text that contents of quotes stand for; of several faults the first. -/
def decode : List Char → Except Fault (List Char)
  | [] => .ok []
  | ['\\'] => .error .loneBackslash
  | '\\' :: l :: r =>
    match meaning? l with
    | some c => (decode r).map (c :: ·)
    | none => .error (.unknownEscape l)
  | c :: r => (decode r).map (c :: ·)

/-- The text with its quotes. -/
def literal (s : List Char) : List Char := '"' :: encode s ++ ['"']

/-- The letter after a backslash means the character it was written for. -/
theorem meaning?_of_letter? {c l : Char} (h : letter? c = some l) : meaning? l = some c := by
  unfold letter? at h
  split at h <;> cases h <;> rfl

/-- A backslash is always escaped. -/
theorem ne_backslash_of_letter? {c : Char} (h : letter? c = none) : c ≠ '\\' := by
  rintro rfl
  simp [letter?] at h

/-- So is a quote. -/
theorem ne_quote_of_letter? {c : Char} (h : letter? c = none) : c ≠ '"' := by
  rintro rfl
  simp [letter?] at h

/-- A character that is no backslash stands for itself. -/
theorem decode_cons {c : Char} {r : List Char} (h : c ≠ '\\') : decode (c :: r) = (decode r).map (c :: ·) := by
  rw [decode.eq_def]
  split <;> simp_all

theorem decode_escape {l c : Char} {r : List Char} (h : meaning? l = some c) :
    decode ('\\' :: l :: r) = (decode r).map (c :: ·) := by
  simp [decode, h]

/-- Decoding undoes encoding, character by character. -/
theorem decode_encode (s : List Char) : decode (encode s) = .ok s := by
  induction s with
  | nil => rfl
  | cons c r ih =>
    cases h : letter? c with
    | some l => simp only [encode, h, decode_escape (meaning?_of_letter? h), ih, Except.map]
    | none => simp only [encode, h, decode_cons (ne_backslash_of_letter? h), ih, Except.map]

theorem encode_injective {s t : List Char} (h : encode s = encode t) : s = t :=
  Except.ok.inj (decode_encode s ▸ h ▸ decode_encode t)

end MiniLisp.Text.Quoted

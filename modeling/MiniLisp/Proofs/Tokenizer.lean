import Mathlib
import MiniLisp.Proofs.Bytes
import MiniLisp.Proofs.Layout
import MiniLisp.Proofs.Pattern

/-!
# Scanning by a pattern

Scanning as a loop does it that matches a pattern at the beginning of what is left, over and over (`tokenize`). The
pattern knows nothing of what makes a literal whole: whether its closing quote is there is found out afterwards, from
the bytes of what was captured. The loop can stop in more ways than that a literal has no end (`Stop`): nothing is
captured, what is captured is empty, or bytes are looked for where there are none.

* `first?_text`, `create_text`: what is captured is the first token of the text, and it is made into that token.
* `tokenize_eq`: the loop does what `Token.scan?` does, and stops in no other way.
* **Nothing is lost** (`scanning_loses_nothing`).
-/

namespace MiniLisp

namespace Tokenizer

/-- Why the loop can stop before the text ends. -/
inductive Stop
  | unbalancedString
  | unexpectedCharacter (c : Char)
  | noCapture (rest : List Char)
  /-- An access to bytes that are not there. -/
  | outOfRange
  deriving DecidableEq

/-! ## The pattern -/

/-- What is skipped before a token. -/
def separators : Pattern := .many (.one Text.isSeparator)

/-- A part of a literal: a backslash and the character after it, or a character that is neither a backslash nor a
quote. -/
def piece : Pattern :=
  .either (.seq (.one (· == '\\')) (.one (· != '\n'))) (.one fun c => c != '\\' && c != '"')

/-- A literal, perhaps without its closing quote. -/
def quoted : Pattern := .seq (.one (· == '"')) (.seq (.many piece) (.either (.one (· == '"')) .empty))

def remark : Pattern := .seq (.one (· == ';')) (.many (.one (· != '\n')))

/-- The characters that are tokens on their own. -/
def marks : List Char := ['[', ']', '{', '}', '(', ')', '\'', '`', '~', '^', '@']

/-- The characters that are in no run, blanks apart. -/
def stops : List Char := ['[', ']', '{', '}', '(', '\'', '"', '`', ',', ';', ')']

def run : Pattern := .many (.one fun c => !(Text.isBlank c || stops.contains c))

/-- What is captured. -/
def word : Pattern :=
  .either (.literally ['~', '@']) (.either (.one marks.contains) (.either quoted (.either remark run)))

/-- What is captured at the beginning of a text, and what is left. -/
def capture? (s : List Char) : Option (List Char × List Char) :=
  ((separators.ways s).flatMap fun w => word.ways w.2).head?

/-! ## The loop -/

/-- The token of a literal that was captured. -/
def literal (captured : List Char) : Except Stop Token :=
  match (Text.bytes captured).getLast? with
  | none => .error .outOfRange
  | some last =>
    if (Text.bytes captured).length = 1 ∨ last ≠ Text.byte '"' then .error .unbalancedString
    else if (((Text.bytes captured).reverse.drop 1).takeWhile (· == Text.byte '\\')).length % 2 = 1 then
      .error .unbalancedString
    else
      match Text.slice 1 ((Text.bytes captured).length - 1) captured with
      | none => .error .outOfRange
      | some contents => .ok (.string contents)

/-- The token of what was captured, by its first byte. -/
def create (captured : List Char) : Except Stop Token :=
  match (Text.bytes captured).head? with
  | none => .error .outOfRange
  | some b =>
    let c := Char.ofNat b.toNat
    if c = '~' ∧ captured = ['~', '@'] then .ok (.shorthand .spliceUnquote)
    else if c = '"' then literal captured
    else if c = ';' then
      match Text.slice 1 (Text.bytes captured).length captured with
      | none => .error .outOfRange
      | some contents => .ok (.comment contents)
    else
      match Token.ofMark? c with
      | some t => .ok t
      | none => .ok (.plain captured)

theorem append_of_capture? {s captured rest : List Char} (h : capture? s = some (captured, rest)) :
    ∃ skipped, s = skipped ++ captured ++ rest := by
  obtain ⟨w, hw, hc⟩ := List.mem_flatMap.1 (List.mem_of_head? h)
  refine ⟨w.1, ?_⟩
  rw [List.append_assoc, Pattern.append_of_ways hc, Pattern.append_of_ways hw]

/-- Each round takes something. -/
theorem length_lt_of_capture? {s captured rest : List Char} (h : capture? s = some (captured, rest))
    (hc : captured ≠ []) : rest.length < s.length := by
  obtain ⟨skipped, rfl⟩ := append_of_capture? h
  have taken := List.length_pos_iff.2 hc
  simp only [List.length_append]
  omega

/-- The tokens of a text. -/
def tokenize (s : List Char) : Except Stop (List Token) :=
  if s = [] then .ok []
  else
    match _h : capture? s with
    | none => .error (.noCapture s)
    | some (captured, rest) =>
      if _hc : captured = [] then
        match rest with
        | [] => .ok []
        | c :: _ => .error (.unexpectedCharacter c)
      else
        match create captured with
        | .error stop => .error stop
        | .ok t => (tokenize rest).map (t :: ·)
termination_by s.length
decreasing_by exact length_lt_of_capture? _h _hc

section

variable {t : Token} {c : Char} {s contents captured rest : List Char}

theorem tokenize_end (h : capture? s = some ([], [])) : tokenize s = .ok [] := by
  rw [tokenize]
  split
  · rfl
  split
  · next h' => rw [h] at h'; cases h'
  · next h' => rw [h] at h'; cases h'; rfl

theorem tokenize_token (h : capture? s = some (captured, rest)) (hc : captured ≠ []) :
    tokenize s = (create captured).bind fun t => (tokenize rest).map (t :: ·) := by
  have some : s ≠ [] := List.length_pos_iff.1 (Nat.zero_lt_of_lt (length_lt_of_capture? h hc))
  rw [tokenize, if_neg some]
  split
  · next h' => rw [h] at h'; cases h'
  · next h' =>
    rw [h] at h'
    cases h'
    rw [dif_neg hc]
    cases create captured <;> rfl

/-! ## What is captured -/

/-- No part of a literal is a quote, a backslash at the end or one before a line break. -/
theorem first?_piece_end (h : ∀ c ∈ rest.head?, c = '"' ∨ c = '\\' ∧ ∀ d ∈ rest.tail.head?, d = '\n') :
    piece.first? rest = none := by
  cases rest with
  | nil => simp [piece, Pattern.first?_either, Pattern.first?_one_seq_nil, Pattern.first?_one_nil]
  | cons c rest =>
    rcases h c rfl with rfl | ⟨rfl, line⟩
    · simp [piece, Pattern.first?_either, Pattern.first?_one_seq, Pattern.first?_one]
    · cases rest with
      | nil => simp [piece, Pattern.first?_either, Pattern.first?_one_seq, Pattern.first?_one, Pattern.first?_one_nil]
      | cons d rest =>
        obtain rfl := line d rfl
        simp [piece, Pattern.first?_either, Pattern.first?_one_seq, Pattern.first?_one]

/-- The parts of a literal are taken as long as there are any. -/
theorem first?_pieces (h : Enclosed contents) (hr : piece.first? rest = none) :
    (Pattern.many piece).first? (contents ++ rest) = some (contents, rest) := by
  induction h with
  | nil => exact Pattern.first?_many_stop hr
  | @pair c r hc _ ih =>
    have one : piece.first? ('\\' :: c :: (r ++ rest)) = some (['\\', c], r ++ rest) := by
      simp [piece, Pattern.first?_either, Pattern.first?_one_seq, Pattern.first?_one, hc]
    exact Pattern.first?_many_step one (by simp) ih
  | @char c r hb hq _ ih =>
    have one : piece.first? (c :: (r ++ rest)) = some ([c], r ++ rest) := by
      simp [piece, Pattern.first?_either, Pattern.first?_one_seq, Pattern.first?_one, hb, hq]
    exact Pattern.first?_many_step one (by simp) ih

/-- A text goes on like the contents of a literal up to a place where no part of one is. -/
theorem exists_enclosed (s : List Char) :
    ∃ contents rest, s = contents ++ rest ∧ Enclosed contents ∧
      ∀ c ∈ rest.head?, c = '"' ∨ c = '\\' ∧ ∀ d ∈ rest.tail.head?, d = '\n' := by
  fun_induction untilQuote? s with
  | case1 => exact ⟨[], [], rfl, .nil, by simp⟩
  | case2 r => exact ⟨[], '"' :: r, rfl, .nil, by simp⟩
  | case3 => exact ⟨[], ['\\'], rfl, .nil, by simp⟩
  | case4 r => exact ⟨[], '\\' :: '\n' :: r, rfl, .nil, by simp⟩
  | case5 c r hc ih =>
    obtain ⟨contents, rest, rfl, enclosed, ended⟩ := ih
    exact ⟨'\\' :: c :: contents, rest, rfl, .pair hc enclosed, ended⟩
  | case6 c r hquote hlone hescape ih =>
    obtain ⟨contents, rest, rfl, enclosed, ended⟩ := ih
    refine ⟨c :: contents, rest, rfl, .char ?_ hquote enclosed, ended⟩
    rintro rfl
    cases hr : contents ++ rest with
    | nil => exact hlone rfl hr
    | cons d r => exact hescape d r rfl hr

theorem first?_quoted_closed (h : Enclosed contents) (rest : List Char) :
    quoted.first? ('"' :: (contents ++ '"' :: rest)) = some ('"' :: contents ++ ['"'], rest) := by
  have ended : piece.first? ('"' :: rest) = none := first?_piece_end (by simp)
  have close : (Pattern.either (.one (· == '"')) .empty).first? ('"' :: rest) = some (['"'], rest) := by
    simp [Pattern.first?_either, Pattern.first?_one]
  simp [quoted, Pattern.first?_one_seq, Pattern.first?_seq (first?_pieces h ended) close]

/-- Where a literal cannot go on and is not closed either, the pattern ends as if it were. -/
theorem first?_quoted_open (h : Enclosed contents)
    (hr : ∀ c ∈ rest.head?, c = '\\' ∧ ∀ d ∈ rest.tail.head?, d = '\n') :
    quoted.first? ('"' :: (contents ++ rest)) = some ('"' :: contents, rest) := by
  have ended : piece.first? rest = none := first?_piece_end fun c hc => .inr (hr c hc)
  have close : (Pattern.either (.one (· == '"')) .empty).first? rest = some ([], rest) := by
    cases rest with
    | nil => simp [Pattern.first?_either, Pattern.first?_one_nil, Pattern.first?_empty]
    | cons c rest =>
      obtain ⟨rfl, -⟩ := hr c rfl
      simp [Pattern.first?_either, Pattern.first?_one, Pattern.first?_empty]
  simp [quoted, Pattern.first?_one_seq, Pattern.first?_seq (first?_pieces h ended) close]

/-- A quote always begins something. -/
theorem exists_quoted (s : List Char) : ∃ w, quoted.first? ('"' :: s) = some w := by
  obtain ⟨contents, rest, rfl, enclosed, ended⟩ := exists_enclosed s
  cases rest with
  | nil => exact ⟨_, first?_quoted_open enclosed (by simp)⟩
  | cons c rest =>
    rcases ended c rfl with rfl | escape
    · exact ⟨_, first?_quoted_closed enclosed rest⟩
    · refine ⟨_, first?_quoted_open enclosed fun d hd => ?_⟩
      cases hd
      exact escape

theorem run_eq : run = .many (.one isPlain) := by
  have same : (fun c => !(Text.isBlank c || stops.contains c)) = isPlain := by
    funext c
    simp only [isPlain, Text.isSeparator, endsPlain, stops, List.contains_cons, List.contains_nil]
    grind
  rw [run, same]

/-- By its first character, what is captured is a tilde and an at sign, a mark, a literal, a comment or a run. -/
theorem first?_word_cons (c : Char) (s : List Char) :
    word.first? (c :: s) =
      if c = '~' ∧ s.head? = some '@' then some (['~', '@'], s.tail)
      else if c ∈ marks then some ([c], s)
      else if c = '"' then quoted.first? (c :: s)
      else if c = ';' then some (c :: s.takeWhile (· ≠ '\n'), s.dropWhile (· ≠ '\n'))
      else some ((c :: s).takeWhile isPlain, (c :: s).dropWhile isPlain) := by
  have splice : (Pattern.literally ['~', '@']).first? (c :: s) =
      if c = '~' ∧ s.head? = some '@' then some (['~', '@'], s.tail) else none := by
    cases s with
    | nil => simp [Pattern.literally, Pattern.first?_one_seq, Pattern.first?_one_seq_nil]
    | cons d s =>
      by_cases hc : c = '~' <;> by_cases hd : d = '@' <;>
        simp [Pattern.literally, Pattern.first?_one_seq, Pattern.first?_empty, hc, hd]
  have remarked : remark.first? (c :: s) =
      if c = ';' then some (c :: s.takeWhile (· ≠ '\n'), s.dropWhile (· ≠ '\n')) else none := by
    have same : (fun c : Char => c != '\n') = fun c => decide (c ≠ '\n') := by
      funext c
      simp [bne, beq_eq_decide]
    simp [remark, Pattern.first?_one_seq, Pattern.first?_many_one, same]
  simp only [word, Pattern.first?_either, splice, Pattern.first?_one, List.contains_iff_mem, remarked, run_eq,
    Pattern.first?_many_one]
  split
  · rfl
  split
  · rfl
  -- a literal always matches where a quote stands, closed or not, so that nothing is tried after it
  by_cases hq : c = '"'
  · obtain ⟨w, hw⟩ := exists_quoted s
    simp [hq, hw]
  · have other : quoted.first? (c :: s) = none := by simp [quoted, Pattern.first?_one_seq, hq]
    rw [other, if_neg hq]
    split <;> rfl

theorem mem_marks_iff : c ∈ marks ↔ ∃ t, Token.ofMark? c = some t := by
  constructor
  · intro h
    simp only [marks, List.mem_cons, List.not_mem_nil, or_false] at h
    rcases h with rfl | rfl | rfl | rfl | rfl | rfl | rfl | rfl | rfl | rfl | rfl <;> exact ⟨_, rfl⟩
  · rintro ⟨t, h⟩
    unfold Token.ofMark? at h
    split at h <;> first | decide | cases h

theorem not_mem_marks (h : Token.ofMark? c = none) : c ∉ marks := by
  intro hc
  obtain ⟨t, ht⟩ := mem_marks_iff.1 hc
  rw [h] at ht
  cases ht

/-- **What is captured** is the token that is written there and that ends there. -/
theorem first?_text (hw : t.WellFormed) (he : t.EndsAt rest) : word.first? (t.text ++ rest) = some (t.text, rest) := by
  cases t with
  | opening b => cases b <;> simp [Token.text, Bracket.openChar, first?_word_cons, marks]
  | closing b => cases b <;> simp [Token.text, Bracket.closeChar, first?_word_cons, marks]
  | caret => simp [Token.text, first?_word_cons, marks]
  | shorthand s =>
    cases s with
    | unquote =>
      have alone : ¬ rest.head? = some '@' := fun h => he '@' h rfl
      simp [Token.text, Shorthand.mark, first?_word_cons, marks, alone]
    | _ => simp [Token.text, Shorthand.mark, first?_word_cons, marks]
  | string contents =>
    simpa [Token.text, first?_word_cons, marks] using first?_quoted_closed hw rest
  | comment contents =>
    obtain ⟨taken, left⟩ := span_line hw he
    rw [Token.text, List.cons_append, first?_word_cons, taken, left]
    simp [marks]
  | plain chars =>
    obtain ⟨taken, left⟩ := span_append hw.plain he
    obtain ⟨c, r, rfl, hm, hq, hs, tilde⟩ := hw.head
    rw [List.cons_append] at taken left
    simp only [Token.text, List.cons_append, first?_word_cons, taken, left]
    simp [tilde, not_mem_marks hm, hq, hs]

/-! ## What is made of it -/

/-- The first byte tells as much as the first character: that of a character which is not ASCII is no mark's. -/
theorem create_cons (c : Char) (s : List Char) :
    create (c :: s) =
      if c = '~' ∧ s = ['@'] then .ok (.shorthand .spliceUnquote)
      else if c = '"' then literal (c :: s)
      else if c = ';' then .ok (.comment s)
      else .ok ((Token.ofMark? c).getD (.plain (c :: s))) := by
  have high {d e : Char} (hd : 127 < d.toNat) (he : e.toNat ≤ 127) : d ≠ e := by
    rintro rfl
    omega
  have unmarked {d : Char} (hd : 127 < d.toNat) : Token.ofMark? d = none := by
    unfold Token.ofMark?
    split <;> first | rfl | revert hd; decide
  have comment : Text.slice 1 (Text.bytes (';' :: s)).length (';' :: s) = some s := by
    have one : (Text.bytes [';']).length = 1 := rfl
    simpa [one] using Text.slice_append [';'] s []
  obtain ⟨b, hb, same | ⟨hd, hc⟩⟩ := Text.head?_bytes c s
  · by_cases hs : c = ';'
    · subst hs
      simp [create, hb, same, comment]
    · simp only [create, hb, same, List.cons.injEq]
      cases hm : Token.ofMark? c <;> simp [hs]
  · simp [create, hb, unmarked hd, unmarked hc, high hd, high hc]

/-! ### Literals -/

/-- How many backslashes a text ends with. -/
def trailing (s : List Char) : Nat := (s.reverse.takeWhile (· == '\\')).length

theorem trailing_backslash (s : List Char) : trailing (s ++ ['\\']) = trailing s + 1 := by simp [trailing]

theorem trailing_other (hc : c ≠ '\\') (s : List Char) : trailing (s ++ [c]) = 0 := by simp [trailing, hc]

/-- The contents of a literal end with backslashes that come in pairs. -/
theorem trailing_enclosed (h : Enclosed contents) (hs : trailing s % 2 = 0) : trailing (s ++ contents) % 2 = 0 := by
  induction h generalizing s with
  | nil => simpa using hs
  | @pair c r hc _ ih =>
    have pair : trailing (s ++ ['\\'] ++ [c]) % 2 = 0 := by
      by_cases hb : c = '\\'
      · rw [hb, trailing_backslash, trailing_backslash]
        omega
      · rw [trailing_other hb]
    simpa using ih pair
  | @char c r hb hq _ ih =>
    have single : trailing (s ++ [c]) % 2 = 0 := by rw [trailing_other hb]
    simpa using ih single

/-- A quote that the contents of a literal end with is taken along by a backslash. -/
theorem enclosed_concat (h : Enclosed (s ++ ['"'])) : ∃ r, s = r ++ ['\\'] ∧ Enclosed r := by
  generalize ht : s ++ ['"'] = t at h
  induction h generalizing s with
  | nil => simp at ht
  | @pair c r hc _ ih =>
    match s with
    | [] => cases ht
    | [d] => cases ht; exact ⟨[], rfl, .nil⟩
    | d :: e :: s =>
      cases ht
      obtain ⟨r, rfl, enclosed⟩ := ih rfl
      exact ⟨'\\' :: c :: r, rfl, .pair hc enclosed⟩
  | @char c r hb hq _ ih =>
    cases s with
    | nil => cases ht; exact absurd rfl hq
    | cons d s =>
      cases ht
      obtain ⟨r, rfl, enclosed⟩ := ih rfl
      exact ⟨c :: r, rfl, .char hb hq enclosed⟩

/-- At a closing quote, the backslashes before it decide. -/
theorem literal_concat (c : Char) (s : List Char) :
    literal (c :: s ++ ['"']) =
      if trailing (c :: s) % 2 = 1 then .error .unbalancedString
      else
        match Text.slice 1 (Text.bytes (c :: s)).length (c :: s ++ ['"']) with
        | none => .error .outOfRange
        | some contents => .ok (.string contents) := by
  have split : Text.bytes (c :: s ++ ['"']) = Text.bytes (c :: s) ++ [Text.byte '"'] := Text.bytes_append _ _
  have some : Text.bytes (c :: s) ≠ [] := by simp [Text.bytes, String.utf8EncodeChar_ne_nil]
  have count := Text.takeWhile_bytes (d := '\\') (by decide) (c :: s)
  rw [← trailing] at count
  simp only [literal, split, List.getLast?_concat, List.length_append, List.length_singleton, List.reverse_append,
    List.reverse_singleton, List.singleton_append, List.drop_succ_cons, List.drop_zero, Nat.add_sub_cancel, count]
  simp [some]

theorem literal_of_enclosed (h : Enclosed contents) : literal ('"' :: contents ++ ['"']) = .ok (.string contents) := by
  have even : trailing ('"' :: contents) % 2 = 0 := trailing_enclosed (s := ['"']) h (by decide)
  have one : (Text.bytes ['"']).length = 1 := rfl
  have between : Text.slice 1 (Text.bytes ('"' :: contents)).length ('"' :: contents ++ ['"']) = some contents := by
    simpa [one] using Text.slice_append ['"'] contents ['"']
  rw [literal_concat, between, if_neg (by omega)]

/-- Where the closing quote is missing, the bytes say so. -/
theorem literal_of_open (h : Enclosed contents) : literal ('"' :: contents) = .error .unbalancedString := by
  -- a quote that is taken along by a backslash can be the last character, and then the backslashes before it are odd
  by_cases hq : contents.getLast? = some '"'
  · obtain ⟨s, rfl⟩ := List.getLast?_eq_some_iff.1 hq
    obtain ⟨r, rfl, enclosed⟩ := enclosed_concat h
    have even : trailing ('"' :: r) % 2 = 0 := trailing_enclosed (s := ['"']) enclosed (by decide)
    have odd : trailing ('"' :: (r ++ ['\\'])) = trailing ('"' :: r) + 1 := trailing_backslash ('"' :: r)
    rw [← List.cons_append, literal_concat, odd, if_pos (by omega)]
  · have split : Text.bytes ('"' :: contents) = Text.byte '"' :: Text.bytes contents := rfl
    cases contents with
    | nil => rfl
    | cons c r =>
      have some : Text.bytes (c :: r) ≠ [] := by simp [Text.bytes, String.utf8EncodeChar_ne_nil]
      have last := mt (Text.getLast?_bytes (by decide)).1 hq
      have hb := List.getLast?_eq_some_getLast some
      have other : (Text.bytes (c :: r)).getLast some ≠ Text.byte '"' := fun h => last (by rw [hb, h])
      simp [literal, split, List.getLast?_cons, hb, other]

/-- **What is made of a token** that is written is this token. -/
theorem create_text (hw : t.WellFormed) : create t.text = .ok t := by
  cases t with
  | opening b => cases b <;> rw [Token.text, create_cons] <;> rfl
  | closing b => cases b <;> rw [Token.text, create_cons] <;> rfl
  | caret => rw [Token.text, create_cons]; rfl
  | shorthand s => cases s <;> rw [Token.text, Shorthand.mark, create_cons] <;> rfl
  | string contents =>
    rw [Token.text, List.cons_append, create_cons]
    simpa using literal_of_enclosed hw
  | comment contents => rw [Token.text, create_cons]; rfl
  | plain chars =>
    obtain ⟨c, r, rfl, hm, hq, hs, tilde⟩ := hw.head
    simp [Token.text, create_cons, tilde, hq, hs, hm]

theorem create_open (h : Enclosed contents) : create ('"' :: contents) = .error .unbalancedString := by
  rw [create_cons]
  simpa using literal_of_open h

/-! ## All of it -/

/-- A literal without an end is captured up to where it cannot go on, and nothing is made of it. -/
theorem exists_open (h : untilQuote? s = none) :
    ∃ contents rest, word.first? ('"' :: s) = some ('"' :: contents, rest) ∧
      create ('"' :: contents) = .error .unbalancedString := by
  obtain ⟨contents, rest, rfl, enclosed, ended⟩ := exists_enclosed s
  have unclosed : ∀ c ∈ rest.head?, c = '\\' ∧ ∀ d ∈ rest.tail.head?, d = '\n' := by
    intro c hc
    refine (ended c hc).resolve_left ?_
    rintro rfl
    obtain ⟨r, rfl⟩ := List.head?_eq_some_iff.1 hc
    rw [untilQuote?_of_enclosed enclosed] at h
    cases h
  refine ⟨contents, rest, ?_, create_open enclosed⟩
  simpa [first?_word_cons, marks] using first?_quoted_open enclosed unclosed

theorem first?_word_nil : word.first? [] = some ([], []) := by
  simp [word, Pattern.first?_either, Pattern.literally, Pattern.first?_one_seq_nil, Pattern.first?_one_nil, quoted,
    remark, run, Pattern.first?_many_one]

/-- What stands before a token is skipped, and never put to another use. -/
theorem capture?_eq {w : List Char × List Char} (h : word.first? (s.dropWhile Text.isSeparator) = some w) :
    capture? s = some w :=
  Pattern.head?_flatMap (Pattern.first?_many_one Text.isSeparator s) h

/-- **The loop does what `Token.scan?` does**, and stops only where that fails. -/
theorem tokenize_eq (s : List Char) :
    tokenize s =
      match Token.scan? s with
      | some ts => .ok ts
      | none => .error .unbalancedString := by
  fun_induction Token.scan? s with
  | case1 s hs => exact tokenize_end (capture?_eq (hs ▸ first?_word_nil))
  | case2 s c r hs hl =>
    obtain ⟨rfl, unended⟩ := Token.lex?_eq_none_iff.1 hl
    obtain ⟨contents, rest, first, nothing⟩ := exists_open unended
    rw [tokenize_token (capture?_eq (hs ▸ first)) (by simp), nothing]
    rfl
  | case3 s c r hs t rest hl ih =>
    obtain ⟨hw, he, split⟩ := Token.of_lex? (head?_dropWhile s c (by rw [hs]; rfl)) hl
    obtain ⟨d, r', ht, -⟩ := Token.text_eq_cons hw
    have first := first?_text hw he
    rw [← split, ← hs] at first
    rw [tokenize_token (capture?_eq first) (by simp [ht]), create_text hw, ih]
    cases Token.scan? rest <;> rfl

theorem tokenize_eq_ok_iff {ts : List Token} : tokenize s = .ok ts ↔ Token.scan? s = some ts := by
  rw [tokenize_eq]
  cases Token.scan? s <;> simp

/-- The loop stops in one way only. -/
theorem tokenize_eq_error_iff {stop : Stop} :
    tokenize s = .error stop ↔ stop = .unbalancedString ∧ Token.scan? s = none := by
  rw [tokenize_eq]
  cases Token.scan? s <;> simp [eq_comm]

/-- What can stand in a literal has no backslash at its end that nothing follows. -/
theorem decode_ne_loneBackslash (h : Enclosed contents) : Text.Quoted.decode contents ≠ .error .loneBackslash := by
  have passed {c : Char} {r : Except Text.Quoted.Fault (List Char)} (hr : r ≠ .error .loneBackslash) :
      r.map (c :: ·) ≠ .error .loneBackslash := by
    cases r with
    | ok s => simp [Except.map]
    | error fault => simpa [Except.map] using hr
  induction h with
  | nil => simp [Text.Quoted.decode]
  | @pair c r _ _ ih =>
    simp only [Text.Quoted.decode]
    split
    · exact passed ih
    · simp
  | char hb _ _ ih =>
    rw [Text.Quoted.decode_cons hb]
    exact passed ih

end

/-- **Nothing is lost, and nothing goes wrong on the way**: the loop comes to the end or to a literal that has none,
and does what scanning does; the tokens are the text but for the white space and the commas around them, and what
stands in a literal is made of pairs that begin with a backslash and of other characters, so that no backslash is left
alone. -/
theorem scanning_loses_nothing :
    (∀ s, (∃ ts, tokenize s = .ok ts) ∨ tokenize s = .error .unbalancedString) ∧
    (∀ s ts, tokenize s = .ok ts ↔ Token.scan? s = some ts) ∧
    ∀ s ts, tokenize s = .ok ts →
      (∃ lead gaps, gaps.length = ts.length ∧
        (∀ gap ∈ lead :: gaps, ∀ c ∈ gap, Text.isBlank c = true ∨ c = ',') ∧
        s = laidOut lead (ts.map Token.text) gaps) ∧
      ∀ contents, .string contents ∈ ts →
        Enclosed contents ∧ Text.Quoted.decode contents ≠ .error .loneBackslash := by
  refine ⟨fun s => ?_, fun s ts => tokenize_eq_ok_iff, fun s ts h => ?_⟩
  · cases hs : Token.scan? s with
    | some ts => exact .inl ⟨ts, tokenize_eq_ok_iff.2 hs⟩
    | none => exact .inr (tokenize_eq_error_iff.2 ⟨rfl, hs⟩)
  · have hs := tokenize_eq_ok_iff.1 h
    obtain ⟨lead, gaps, hlength, hgaps, hlaid⟩ := exists_laidOut hs
    refine ⟨⟨lead, gaps, hlength, fun gap hg c hc => ?_, hlaid⟩, fun contents hc => ?_⟩
    · simpa [Text.isSeparator] using hgaps gap hg c hc
    · have enclosed : Enclosed contents := Token.wellFormed_of_scan? hs _ hc
      exact ⟨enclosed, decode_ne_loneBackslash enclosed⟩

example : tokenize ",\"\\\\\\\"\" ~@;a".toList =
    .ok [.string ['\\', '\\', '\\', '"'], .shorthand .spliceUnquote, .comment ['a']] :=
  tokenize_eq_ok_iff.2 (by cbv)

end Tokenizer

end MiniLisp

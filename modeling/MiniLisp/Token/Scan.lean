import MiniLisp.Token.Basic

/-!
# Scanning

From left to right, each token is the longest of its kind; separators before it are skipped. The only fault is a
string literal that does not end.

* `length_lt_of_lex`: a token takes at least one character, so that scanning ends.
-/

namespace MiniLisp

/-- What stands up to the closing quote of a string literal, and what follows the quote. A backslash takes the
character after it along, unless that is a line break. -/
def untilQuote? : List Char → Option (List Char × List Char)
  | [] => none
  | '"' :: r => some ([], r)
  | ['\\'] => none
  | '\\' :: c :: r => if c = '\n' then none else (untilQuote? r).map fun p => ('\\' :: c :: p.1, p.2)
  | c :: r => (untilQuote? r).map fun p => (c :: p.1, p.2)

namespace Token

/-- The first token of a text that starts with no separator, and what follows it. -/
def lex? (c : Char) (r : List Char) : Option (Token × List Char) :=
  if c = '"' then (untilQuote? r).map fun p => (string p.1, p.2)
  else if c = ';' then some (comment (r.takeWhile (· ≠ '\n')), r.dropWhile (· ≠ '\n'))
  else if c = '~' ∧ r.head? = some '@' then some (shorthand .spliceUnquote, r.tail)
  else
    match ofMark? c with
    | some t => some (t, r)
    | none => some (plain (c :: r.takeWhile isPlain), r.dropWhile isPlain)

theorem length_le_of_untilQuote? {r : List Char} {p : List Char × List Char} (h : untilQuote? r = some p) :
    p.2.length ≤ r.length := by
  fun_induction untilQuote? r generalizing p with
  | case1 => simp at h
  | case2 r => cases h; simp
  | case3 => simp at h
  | case4 => simp at h
  | case5 c r _ ih =>
    obtain ⟨q, hq, rfl⟩ := Option.map_eq_some_iff.1 h
    simpa using Nat.le_trans (ih hq) (by omega)
  | case6 c r _ _ _ ih =>
    obtain ⟨q, hq, rfl⟩ := Option.map_eq_some_iff.1 h
    simpa using Nat.le_trans (ih hq) (by omega)

theorem length_lt_of_lex? {c : Char} {r : List Char} {p : Token × List Char} (h : lex? c r = some p) :
    p.2.length < (c :: r).length := by
  have dropped (f : Char → Bool) : (r.dropWhile f).length ≤ r.length := (r.dropWhile_suffix f).length_le
  unfold lex? at h
  simp only [List.length_cons]
  split at h
  · obtain ⟨q, hq, rfl⟩ := Option.map_eq_some_iff.1 h
    exact Nat.lt_succ_of_le (length_le_of_untilQuote? hq)
  split at h
  · cases h
    exact Nat.lt_succ_of_le (dropped _)
  split at h
  · cases h
    simp only [List.length_tail]
    omega
  split at h
  · cases h
    exact Nat.lt_succ_self _
  · cases h
    exact Nat.lt_succ_of_le (dropped _)

/-- The tokens of a text, if every string literal in it ends. -/
def scan? (s : List Char) : Option (List Token) :=
  match _h : s.dropWhile Text.isSeparator with
  | [] => some []
  | c :: r =>
    match _h' : lex? c r with
    | none => none
    | some (t, r') => (scan? r').map (t :: ·)
termination_by s.length
decreasing_by
  have := length_lt_of_lex? _h'
  have := (s.dropWhile_suffix Text.isSeparator).length_le
  simp_all only
  omega

end Token

end MiniLisp

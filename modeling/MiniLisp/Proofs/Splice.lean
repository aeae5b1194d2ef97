import Mathlib
import MiniLisp.Interpreter
import MiniLisp.Proofs.Region

/-!
# Scanning over a line break

Every token that a text can end with ends at a line break, whatever follows it, but for a string literal that has no
end; and that has none afterwards either if no quote follows. So a text with a line break after it is scanned like the
text, and then what follows (`scan?_line`, `scan?_append_line`). This holds of the text that is put between the
brackets of a program (`scan?_program`).
-/

namespace MiniLisp

namespace Token

/-- Whatever a text ends in, a line break ends it. -/
theorem stopsAt_line (p : Region) (rest : List Char) : p.StopsAt ('\n' :: rest) := by
  cases p <;> rintro c ⟨⟩ <;> decide

/-- A text that is scanned is scanned in the same way before a line break. -/
theorem scan?_line {s : List Char} {ts : List Token} (h : scan? s = some ts) (rest : List Char) :
    scan? (s ++ '\n' :: rest) = (scan? rest).map (ts ++ ·) := by
  rw [scan?_append h (stopsAt_line _ rest), scan?_separator (by decide)]

/-- A text is scanned before a line break as it is scanned alone, if no quote follows. -/
theorem scan?_append_line (s : List Char) {rest : List Char} (hr : '"' ∉ rest) :
    scan? (s ++ '\n' :: rest) = (scan? s).bind fun ts => (scan? rest).map (ts ++ ·) := by
  cases hs : scan? s with
  | some ts => exact scan?_line hs rest
  | none => exact scan?_eq_none_iff.2 ((scan?_eq_none_iff.1 hs).append (by simpa using hr))

/-! ## Programs -/

/-- The tokens that stand around the text of a program. -/
def inProgram (ts : List Token) : List Token :=
  opening .round :: plain ['d', 'o'] :: (ts ++ [plain ['n', 'i', 'l'], closing .round])

theorem scan?_program (source : String) :
    scan? (Interpreter.program source).toList = (scan? source.toList).map inProgram := by
  have run (chars : List Char) (h : IsRun chars) (c : Char) (hc : isPlain c = false) (rest : List Char) :
      scan? (chars ++ c :: rest) = (scan? (c :: rest)).map (plain chars :: ·) := scan?_run h (stops_cons hc rest)
  have last : scan? ['n', 'i', 'l', ')'] = some [plain ['n', 'i', 'l'], closing .round] := by
    rw [show ['n', 'i', 'l', ')'] = ['n', 'i', 'l'] ++ [')'] from rfl,
      run _ ⟨List.all_eq_true.1 rfl, _, _, rfl, rfl⟩ ')' (by decide), scan?_mark (t := closing .round) rfl (by decide),
      scan?_nil]
    rfl
  have text : (Interpreter.program source).toList =
      '(' :: (['d', 'o'] ++ ' ' :: (source.toList ++ '\n' :: ['n', 'i', 'l', ')'])) := by
    simp [Interpreter.program]
  rw [text, scan?_mark (t := opening .round) rfl (by decide),
    run _ ⟨List.all_eq_true.1 rfl, _, _, rfl, rfl⟩ ' ' (by decide), scan?_separator (by decide),
    scan?_append_line _ (by decide), last]
  cases scan? source.toList <;> rfl

end Token

end MiniLisp

import Mathlib
import MiniLisp.Proofs.Acceptance
import MiniLisp.Proofs.Splice
import MiniLisp.Proofs.Tokenizer

/-!
# Unbalanced literals

By the rules (`Region.next`) a literal is unbalanced if it is open where the text ends. That is when it is reported, but
it is reported too wherever a backslash in a literal stands before a line break: there the pattern for the contents of
a literal stops.

* `unbalanced_where_open_or_broken`: when a literal is reported as unbalanced, and that a closed one with an escape that
  has no meaning is reported as malformed.
* `rest_is_passed_over`: what follows the line of a complete form makes no difference unless it is reported as
  unbalanced, since all of the text is scanned before the form is read.
-/

namespace MiniLisp

open Region (outside)
open Text.Quoted (Faulty)
open Token (uncommented)

variable {s p q : List Char} {ps qs : List Token}

/-- A literal is found behind what ends outside and before whatever is scanned. -/
theorem scan?_enclosed {contents : List Char} (hp : Token.scan? p = some ps) (ho : outside.after p = .outside)
    (h : Enclosed contents) (hq : Token.scan? q = some qs) :
    Token.scan? (p ++ ('"' :: contents ++ '"' :: q)) = some (ps ++ .string contents :: qs) := by
  have stops : (outside.after p).StopsAt ('"' :: contents ++ '"' :: q) := by
    rw [ho]
    rintro c ⟨⟩
    decide
  have literal : '"' :: contents ++ '"' :: q = (Token.string contents).text ++ q := by simp [Token.text]
  rw [Token.scan?_append hp stops, literal, Token.scan?_text (t := .string contents) h trivial, hq]
  rfl

/-- Tokens lack no end of a literal. -/
theorem not_refuses_unbalanced_string {ts : List Token} : ¬ Refuses ts (.unbalanced .string) := by
  intro h
  generalize hf : ReadError.unbalanced .string = fault at h
  cases h with
  | nothing => cases hf
  | @unfinished ts top stack =>
    cases top with
    | bracket b => cases b <;> cases hf
    | shorthand => cases hf
  | offended _ ht => exact Reader.Offends.ne_unbalanced ht hf.symm

/-- Reading reports an unbalanced literal where scanning does. -/
theorem read?_eq_unbalanced_string_iff : Value.read? s = .error (.unbalanced .string) ↔ Token.scan? s = none := by
  cases hs : Token.scan? s with
  | none => simp [Value.read?, hs]
  | some ts => simp [read?_eq_error_iff hs, not_refuses_unbalanced_string]

/-- **A literal is reported as unbalanced** exactly if one is open where the text ends or a backslash in one stands
before a line break. A closed literal in which a backslash stands before any other character without a meaning is
reported as malformed, where it is the first token that nothing can be made of. -/
theorem unbalanced_where_open_or_broken (s : List Char) :
    (Tokenizer.tokenize s = .error .unbalancedString ↔
      (outside.after s).inLiteral = true ∨ ∃ q r, s = q ++ '\n' :: r ∧ outside.after q = .escape) ∧
    (Value.read? s = .error (.unbalanced .string) ↔ Tokenizer.tokenize s = .error .unbalancedString) ∧
    ∀ p contents q ps qs stack letter, s = p ++ ('"' :: contents ++ '"' :: q) → Token.scan? p = some ps →
      outside.after p = .outside → Begins (uncommented ps) stack → Enclosed contents →
      Faulty contents (.unknownEscape letter) → Token.scan? q = some qs →
      Value.read? s = .error (.badString contents (.unknownEscape letter)) := by
  have reported : Tokenizer.tokenize s = .error .unbalancedString ↔ Token.scan? s = none := by
    simp [Tokenizer.tokenize_eq_error_iff]
  refine ⟨reported.trans Token.scan?_eq_none_iff, read?_eq_unbalanced_string_iff.trans reported.symm, ?_⟩
  rintro p contents q ps qs stack letter rfl hp ho hb h hf hq
  have split : uncommented (ps ++ .string contents :: qs) = uncommented ps ++ .string contents :: uncommented qs := by
    simp [uncommented, Token.isComment]
  rw [read?_eq_error_iff (scan?_enclosed hp ho h hq), split]
  exact .offended hb (.string stack hf) _

/-- A letter without a meaning behind a backslash, in a quoted list that is not closed. -/
theorem unbalanced_where_open_or_broken_letter :
    Value.read? "'(\"a\\q\" ]".toList = .error (.badString ['a', '\\', 'q'] (.unknownEscape 'q')) := by
  have before : Token.scan? "'(".toList = some [.shorthand .quote, .opening .round] := by cbv
  have behind : Token.scan? " ]".toList = some [.closing .square] := by cbv
  have begun : Begins [.shorthand .quote, .opening .round] [.bracket .round [], .shorthand .quote] :=
    .bracket .round (.shorthand .quote .nil) .nil
  have enclosed : Enclosed ['a', '\\', 'q'] := .char (by decide) (by decide) (.pair (by decide) .nil)
  have faulty : Faulty ['a', '\\', 'q'] (.unknownEscape 'q') := Text.Quoted.decode_eq_error_iff.1 (by cbv)
  exact (unbalanced_where_open_or_broken _).2.2 _ _ _ _ _ _ _ rfl before (by decide) begun enclosed faulty behind

/-- A literal that a quote closes is reported as unbalanced all the same, for the line break in it. -/
theorem unbalanced_where_closed :
    (outside.after "\"a\\\nb\"".toList).inLiteral = false ∧
      Tokenizer.tokenize "\"a\\\nb\"".toList = .error .unbalancedString ∧
      Value.read? "\"a\\\nb\"".toList = .error (.unbalanced .string) := by
  have scanned : Token.scan? "\"a\\\nb\"".toList = none := by cbv
  exact ⟨by decide, Tokenizer.tokenize_eq_error_iff.2 ⟨rfl, scanned⟩, read?_eq_unbalanced_string_iff.2 scanned⟩

/-! ## What follows -/

/-- **What follows** the line of a complete form makes no difference, unless a literal is open where it ends or a
backslash in one stands before a line break: then that is reported, and not the form. -/
theorem rest_is_passed_over {s : List Char} {v : Value} (h : Value.read? s = .ok v) (t : List Char) :
    (¬ outside.Unclosed t → Value.read? (s ++ '\n' :: t) = .ok v) ∧
    (outside.Unclosed t → Value.read? (s ++ '\n' :: t) = .error (.unbalanced .string)) := by
  obtain ⟨ts, us, rest, hs, hu, form⟩ := form_of_read? h
  have scanned := Token.scan?_line hs t
  refine ⟨fun closed => ?_, fun unclosed => ?_⟩
  · obtain ⟨qs, hq⟩ := Option.ne_none_iff_exists'.1 (mt Token.scan?_eq_none_iff.1 closed)
    rw [hq] at scanned
    have split : uncommented (ts ++ qs) = us ++ (rest ++ uncommented qs) := by
      rw [← List.append_assoc, ← hu]
      exact List.filter_append ..
    exact read?_of_uncommented scanned _ split form
  · rw [Token.scan?_eq_none_iff.2 unclosed] at scanned
    exact read?_eq_unbalanced_string_iff.2 scanned

/-- Behind a form with a comment come brackets and a caret, or a literal with a backslash before a line break. -/
theorem rest_is_passed_over_marks :
    Value.read? "1;a\n)^[".toList = .ok (.int 1) ∧
      Value.read? "1;a\n\"\\\n\"".toList = .error (.unbalanced .string) := by
  have one : Value.read? "1;a".toList = .ok (.int 1) := by cbv
  have marks : Token.scan? ")^[".toList = some [.closing .round, .caret, .opening .square] := by cbv
  have closed : ¬ outside.Unclosed ")^[".toList := by
    rw [← Token.scan?_eq_none_iff, marks]
    simp
  have broken : outside.Unclosed "\"\\\n\"".toList := .inr ⟨['"', '\\'], ['"'], rfl, rfl⟩
  exact ⟨(rest_is_passed_over one _).1 closed, (rest_is_passed_over one _).2 broken⟩

/-- A quote behind a form spoils the form. -/
theorem rest_spoils_form :
    Value.read? "1".toList = .ok (.int 1) ∧
      Value.read? ("1".toList ++ '\n' :: "\"".toList) = .error (.unbalanced .string) := by
  have scanned : Token.scan? ("1".toList ++ '\n' :: "\"".toList) = none := by cbv
  exact ⟨by cbv, read?_eq_unbalanced_string_iff.2 scanned⟩

end MiniLisp

import Mathlib
import MiniLisp.Proofs.Tokenizer

/-!
# Where a literal ends

The quotes of a literal say where it ends whatever stands between them: its end is found before any text
(`Token.scan?_literal`), and nothing of it that ends earlier is whole (`Token.scan?_of_prefix`). So from a text that
begins with a literal, the literal and what follows it can be told (`eq_of_literal_append`).

* `literals_delimit_themselves`: what the loop of `Tokenizer.tokenize` makes of literals.
-/

namespace MiniLisp

open Text.Quoted (literal encode decode)

variable {s t p contents rest rest' : List Char}

/-- Contents of a literal have no closing quote in them. -/
theorem untilQuote?_of_prefix (h : Enclosed contents) (hp : p <+: contents) : untilQuote? p = none := by
  induction h generalizing p with
  | nil =>
    rw [List.prefix_nil.1 hp]
    rfl
  | @pair c r hc _ ih =>
    -- a prefix may end between the backslash and the character that it takes along
    match p with
    | [] => rfl
    | [d] =>
      obtain ⟨rfl, -⟩ := List.cons_prefix_cons.1 hp
      rfl
    | d :: e :: p =>
      obtain ⟨rfl, taken⟩ := List.cons_prefix_cons.1 hp
      obtain ⟨rfl, hr⟩ := List.cons_prefix_cons.1 taken
      simp [untilQuote?, hc, ih hr]
  | @char c r hb hq _ ih =>
    cases p with
    | nil => rfl
    | cons d p =>
      obtain ⟨rfl, hr⟩ := List.cons_prefix_cons.1 hp
      simp [untilQuote?_cons hq hb, ih hr]

/-- A part of a literal from its beginning, short of its closing quote, is no literal. -/
theorem Token.scan?_of_prefix (hp : p <+: literal s) (hne : p ≠ []) (hshort : p ≠ literal s) : scan? p = none := by
  have inside : p <+: '"' :: encode s := by
    have closed : p <+: ('"' :: encode s) ++ ['"'] := hp
    exact (List.prefix_concat_iff.1 closed).resolve_left hshort
  cases p with
  | nil => exact absurd rfl hne
  | cons c r =>
    obtain ⟨rfl, hr⟩ := List.cons_prefix_cons.1 inside
    have unended := untilQuote?_of_prefix (enclosed_encode s) hr
    rw [scan?_cons (by decide), lex?_eq_none_iff.2 ⟨rfl, unended⟩]
    rfl

/-- **A text that begins with a literal** begins with no other, and what follows the literal is settled. -/
theorem eq_of_literal_append (h : literal s ++ rest = literal t ++ rest') : s = t ∧ rest = rest' := by
  have ended (s rest : List Char) : untilQuote? ((literal s ++ rest).tail) = some (encode s, rest) := by
    simpa [literal] using untilQuote?_of_enclosed (enclosed_encode s) rest
  have same : some (encode s, rest) = some (encode t, rest') := by rw [← ended s rest, h, ended t rest']
  obtain ⟨contents, following⟩ := Prod.mk.inj (Option.some.inj same)
  exact ⟨Text.Quoted.encode_injective contents, following⟩

/-- The loop goes on behind a literal as if it began there. -/
theorem Tokenizer.tokenize_literal (s rest : List Char) :
    tokenize (Text.Quoted.literal s ++ rest) = (tokenize rest).map (.string (encode s) :: ·) := by
  rw [tokenize_eq, tokenize_eq, Token.scan?_literal]
  cases Token.scan? rest <;> rfl

/-- **Literals delimit themselves**, and nothing is lost in them. The literal of any text is one token before
anything, the token gives back the text, and what follows comes to what it comes to on its own, tokens or a fault. No
two texts have literals that begin the same text, and no literal ends early: what is only a part of it is a string
that is not balanced. -/
theorem literals_delimit_themselves :
    (∀ s rest ts, Tokenizer.tokenize rest = .ok ts →
      ∃ contents, Tokenizer.tokenize (literal s ++ rest) = .ok (.string contents :: ts) ∧
        decode contents = .ok s) ∧
    (∀ s rest stop, Tokenizer.tokenize rest = .error stop →
      Tokenizer.tokenize (literal s ++ rest) = .error stop) ∧
    (∀ s t rest rest', literal s ++ rest = literal t ++ rest' → s = t ∧ rest = rest') ∧
    ∀ s p, p <+: literal s → p ≠ [] → p ≠ literal s → Tokenizer.tokenize p = .error .unbalancedString := by
  refine ⟨fun s rest ts h => ?_, fun s rest stop h => ?_, fun s t rest rest' => eq_of_literal_append,
    fun s p hp hne hshort => ?_⟩
  · refine ⟨encode s, ?_, Text.Quoted.decode_encode s⟩
    rw [Tokenizer.tokenize_literal, h]
    rfl
  · rw [Tokenizer.tokenize_literal, h]
    rfl
  · exact Tokenizer.tokenize_eq_error_iff.2 ⟨rfl, Token.scan?_of_prefix hp hne hshort⟩

/-- A text that ends with backslashes and a quote, and holds all that could end a literal or a token. -/
theorem literals_delimit_themselves_backslashes :
    let s := "a;\n)\"\\\\\"\\".toList
    let rest := ";\"".toList
    (∃ contents, Tokenizer.tokenize (literal s ++ rest) = .ok [.string contents, .comment ['"']] ∧
      decode contents = .ok s) ∧
    Tokenizer.tokenize (literal s ++ "\"\\".toList) = .error .unbalancedString ∧
    Tokenizer.tokenize ((literal s).take 9) = .error .unbalancedString := by
  intro s rest
  obtain ⟨whole, broken, -, cut⟩ := literals_delimit_themselves
  have after : Tokenizer.tokenize rest = .ok [.comment ['"']] := Tokenizer.tokenize_eq_ok_iff.2 (by cbv)
  have unended : Tokenizer.tokenize "\"\\".toList = .error .unbalancedString :=
    Tokenizer.tokenize_eq_error_iff.2 ⟨rfl, by cbv⟩
  exact ⟨whole s rest _ after, broken s _ _ unended,
    cut s _ (List.take_prefix 9 _) (by decide) (by decide)⟩

end MiniLisp

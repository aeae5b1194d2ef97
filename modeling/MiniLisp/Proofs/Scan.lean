import MiniLisp.Token.Scan
import MiniLisp.Text.Quoted

/-!
# Scanning what is written

The first token of a text is the one that the text begins with and that ends there (`Token.lex?_iff`): a literal ends
at its closing quote, a comment at the end of the line, a plain run where a character stops it, and a tilde unless an
at sign follows. So a token that is written is scanned as itself before anything that it ends at (`Token.scan?_text`),
and every token that is scanned could have been written (`Token.wellFormed_of_scan?`).
-/

namespace MiniLisp

/-! ## The parts of tokens -/

/-- The characters of a plain run: none that ends one, and a first one that is no mark. -/
structure IsRun (chars : List Char) : Prop where
  plain : ∀ c ∈ chars, isPlain c = true
  start : ∃ c r, chars = c :: r ∧ Token.ofMark? c = none

/-- What follows goes on with no plain run. -/
def Stops (rest : List Char) : Prop := ∀ c ∈ rest.head?, isPlain c = false

/-- What can stand between the quotes of a literal: backslashes, each with a character after it that is no line break,
and characters that are neither a backslash nor a quote. -/
inductive Enclosed : List Char → Prop
  | nil : Enclosed []
  | pair {c : Char} {r : List Char} (hc : c ≠ '\n') (h : Enclosed r) : Enclosed ('\\' :: c :: r)
  | char {c : Char} {r : List Char} (hb : c ≠ '\\') (hq : c ≠ '"') (h : Enclosed r) : Enclosed (c :: r)

theorem stops_nil : Stops [] := fun _ h => by cases h

theorem stops_cons {c : Char} (h : isPlain c = false) (rest : List Char) : Stops (c :: rest) := by
  intro d hd
  cases hd
  exact h

theorem isSeparator_of_isPlain {c : Char} (h : isPlain c = true) : Text.isSeparator c = false := by
  unfold isPlain at h
  cases hs : Text.isSeparator c <;> simp_all

theorem endsPlain_of_isPlain {c : Char} (h : isPlain c = true) : endsPlain c = false := by
  unfold isPlain at h
  cases hs : endsPlain c <;> simp_all

/-- Plain runs hold no quote and no semicolon. -/
theorem ne_of_isPlain {c : Char} (h : isPlain c = true) : c ≠ '"' ∧ c ≠ ';' := by
  have hend := endsPlain_of_isPlain h
  constructor <;> rintro rfl <;> cases hend

/-- No separator and no mark: the character begins a run unless it begins a string or a comment. -/
theorem isPlain_of_ofMark? {c : Char} (hs : Text.isSeparator c = false) (hm : Token.ofMark? c = none) (hq : c ≠ '"')
    (hc : c ≠ ';') : isPlain c = true := by
  have hend : endsPlain c = false := by
    cases he : endsPlain c with
    | false => rfl
    | true =>
      simp only [endsPlain, Bool.or_eq_true, beq_iff_eq] at he
      rcases he with ((((((((rfl | rfl) | rfl) | rfl) | rfl) | rfl) | rfl) | rfl) | rfl) | rfl <;>
        simp_all [Token.ofMark?]
  simp [isPlain, hs, hend]

/-- What is taken while a condition holds ends where it does not hold. -/
theorem span_append {p : Char → Bool} {chars rest : List Char} (h : ∀ c ∈ chars, p c = true)
    (hr : ∀ c ∈ rest.head?, p c = false) :
    (chars ++ rest).takeWhile p = chars ∧ (chars ++ rest).dropWhile p = rest := by
  rw [List.takeWhile_append_of_pos h, List.dropWhile_append_of_pos h]
  cases rest with
  | nil => simp
  | cons c rest => simp [hr c rfl]

/-- Where dropping ends, the condition does not hold. -/
theorem head?_dropWhile {p : Char → Bool} (s : List Char) : ∀ c ∈ (s.dropWhile p).head?, p c = false := by
  intro c hc
  have stop := List.head?_dropWhile_not p s
  rw [hc] at stop
  simpa using stop

/-- What begins a run begins nothing else. -/
theorem IsRun.head {chars : List Char} (h : IsRun chars) :
    ∃ c r, chars = c :: r ∧ Token.ofMark? c = none ∧ c ≠ '"' ∧ c ≠ ';' ∧ c ≠ '~' := by
  obtain ⟨c, r, rfl, hm⟩ := h.start
  obtain ⟨hq, hs⟩ := ne_of_isPlain (h.plain c List.mem_cons_self)
  refine ⟨c, r, rfl, hm, hq, hs, ?_⟩
  rintro rfl
  cases hm

/-- What stands in a line, and what follows the line. -/
theorem span_line {contents rest : List Char} (h : '\n' ∉ contents) (hr : ∀ c ∈ rest.head?, c = '\n') :
    (contents ++ rest).takeWhile (· ≠ '\n') = contents ∧ (contents ++ rest).dropWhile (· ≠ '\n') = rest := by
  have line : ∀ c ∈ contents, decide (c ≠ '\n') = true := by
    intro c hc
    simpa using fun hn : c = '\n' => h (hn ▸ hc)
  exact span_append line fun c hc => by simpa using hr c hc

/-- The separators that a text begins with. -/
theorem exists_separators (s : List Char) :
    ∃ seps, (∀ c ∈ seps, Text.isSeparator c = true) ∧ s = seps ++ s.dropWhile Text.isSeparator :=
  ⟨s.takeWhile Text.isSeparator, List.all_eq_true.1 List.all_takeWhile, List.takeWhile_append_dropWhile.symm⟩

/-! ## Literals -/

theorem untilQuote?_cons {c : Char} (hq : c ≠ '"') (hb : c ≠ '\\') (s : List Char) :
    untilQuote? (c :: s) = (untilQuote? s).map fun p => (c :: p.1, p.2) := by
  rw [untilQuote?.eq_def]
  split <;> simp_all

theorem untilQuote?_of_enclosed {contents : List Char} (h : Enclosed contents) (rest : List Char) :
    untilQuote? (contents ++ '"' :: rest) = some (contents, rest) := by
  induction h with
  | nil => rfl
  | pair hc _ ih => simp [untilQuote?, hc, ih]
  | char hb hq _ ih => simp [untilQuote?_cons hq hb, ih]

theorem enclosed_of_untilQuote? {s : List Char} {p : List Char × List Char} (h : untilQuote? s = some p) :
    Enclosed p.1 ∧ s = p.1 ++ '"' :: p.2 := by
  fun_induction untilQuote? s generalizing p with
  | case1 | case3 | case4 => cases h
  | case2 r => cases h; exact ⟨.nil, rfl⟩
  | case5 c r hc ih =>
    obtain ⟨q, hq, rfl⟩ := Option.map_eq_some_iff.1 h
    obtain ⟨enclosed, rfl⟩ := ih hq
    exact ⟨.pair hc enclosed, rfl⟩
  | case6 c r hquote hlone hescape ih =>
    obtain ⟨q, hq, rfl⟩ := Option.map_eq_some_iff.1 h
    obtain ⟨enclosed, rfl⟩ := ih hq
    have hb : c ≠ '\\' := by
      rintro rfl
      cases hr : q.1 ++ '"' :: q.2 with
      | nil => exact hlone rfl hr
      | cons d r => exact hescape d r rfl hr
    exact ⟨.char hb hquote enclosed, rfl⟩

theorem enclosed_encode (s : List Char) : Enclosed (Text.Quoted.encode s) := by
  induction s with
  | nil => exact .nil
  | cons c s ih =>
    cases hl : Text.Quoted.letter? c with
    | some l =>
      have hne : l ≠ '\n' := by
        unfold Text.Quoted.letter? at hl
        split at hl <;> cases hl <;> decide
      simpa [Text.Quoted.encode, hl] using Enclosed.pair hne ih
    | none =>
      have hb := Text.Quoted.ne_backslash_of_letter? hl
      have hq := Text.Quoted.ne_quote_of_letter? hl
      simpa [Text.Quoted.encode, hl] using Enclosed.char hb hq ih

namespace Token

/-! ## One token -/

/-- A token that a text can hold. -/
def WellFormed : Token → Prop
  | string contents => Enclosed contents
  | comment contents => '\n' ∉ contents
  | plain chars => IsRun chars
  | _ => True

/-- The token ends where this follows. -/
def EndsAt : Token → List Char → Prop
  | comment _, rest => ∀ c ∈ rest.head?, c = '\n'
  | plain _, rest => Stops rest
  | shorthand .unquote, rest => ∀ c ∈ rest.head?, c ≠ '@'
  | _, _ => True

/-- Marks are no separators. -/
theorem isSeparator_of_ofMark? {c : Char} {t : Token} (h : ofMark? c = some t) : Text.isSeparator c = false := by
  unfold ofMark? at h
  split at h <;> first | decide | cases h

theorem text_of_ofMark? {c : Char} {t : Token} (h : ofMark? c = some t) : t.WellFormed ∧ t.text = [c] := by
  unfold ofMark? at h
  split at h <;> cases h <;> exact ⟨trivial, rfl⟩

/-- A token begins with a character that is no separator. -/
theorem text_eq_cons {t : Token} (h : t.WellFormed) : ∃ c r, t.text = c :: r ∧ Text.isSeparator c = false := by
  cases t with
  | opening b => exact ⟨b.openChar, [], rfl, by cases b <;> decide⟩
  | closing b => exact ⟨b.closeChar, [], rfl, by cases b <;> decide⟩
  | shorthand s => cases s <;> exact ⟨_, _, rfl, by decide⟩
  | caret => exact ⟨_, _, rfl, by decide⟩
  | string contents => exact ⟨_, _, rfl, by decide⟩
  | comment contents => exact ⟨_, _, rfl, by decide⟩
  | plain chars =>
    obtain ⟨c, r, rfl, -⟩ := h.start
    exact ⟨c, r, rfl, isSeparator_of_isPlain (h.plain c List.mem_cons_self)⟩

theorem lex?_of_text {t : Token} {c : Char} {r rest : List Char} (hw : t.WellFormed) (he : t.EndsAt rest)
    (ht : t.text = c :: r) : lex? c (r ++ rest) = some (t, rest) := by
  cases t with
  | opening b => cases b <;> cases ht <;> rfl
  | closing b => cases b <;> cases ht <;> rfl
  | caret => cases ht; rfl
  | shorthand s =>
    cases s with
    | unquote =>
      cases ht
      have alone : ¬ rest.head? = some '@' := fun h => he '@' h rfl
      simp [lex?, ofMark?, alone]
    | _ => cases ht; rfl
  | string contents =>
    cases ht
    simp [lex?, untilQuote?_of_enclosed hw]
  | comment contents =>
    cases ht
    obtain ⟨taken, left⟩ := span_line hw he
    simp only [lex?, taken, left]
    rfl
  | plain chars =>
    cases ht
    obtain ⟨c', r', same, hm, hq, hs, tilde⟩ := hw.head
    cases same
    obtain ⟨taken, left⟩ := span_append (fun d hd => hw.plain d (List.mem_cons_of_mem _ hd)) he
    simp [lex?, hq, hs, tilde, hm, taken, left]

theorem of_lex? {t : Token} {c : Char} {r rest : List Char} (hs : Text.isSeparator c = false)
    (h : lex? c r = some (t, rest)) : t.WellFormed ∧ t.EndsAt rest ∧ c :: r = t.text ++ rest := by
  unfold lex? at h
  split at h
  · next hq =>
    obtain ⟨p, hp, same⟩ := Option.map_eq_some_iff.1 h
    cases same
    obtain ⟨enclosed, rfl⟩ := enclosed_of_untilQuote? hp
    exact ⟨enclosed, trivial, by simp [hq, text]⟩
  split at h
  · next hc =>
    cases h
    refine ⟨fun hmem => ?_, fun d hd => ?_, ?_⟩
    · simpa using List.all_eq_true.1 List.all_takeWhile _ hmem
    · simpa using head?_dropWhile _ d hd
    · rw [hc, text, List.cons_append, List.takeWhile_append_dropWhile]
  split at h
  · next ht =>
    cases h
    cases r with
    | nil => cases ht.2
    | cons d r =>
      obtain ⟨rfl, hd⟩ := ht
      cases hd
      exact ⟨trivial, trivial, rfl⟩
  split at h
  · next htilde _ t' hm =>
    cases h
    obtain ⟨wellFormed, alone⟩ := text_of_ofMark? hm
    refine ⟨wellFormed, ?_, by rw [alone]; rfl⟩
    -- of the marks, only the tilde looks at what follows
    unfold ofMark? at hm
    split at hm <;> cases hm <;> first | exact trivial | exact fun d hd hat => htilde ⟨rfl, hat ▸ hd⟩
  · next hq hc _ _ hm =>
    cases h
    refine ⟨⟨fun d hd => ?_, c, _, rfl, hm⟩, head?_dropWhile r, ?_⟩
    · rcases List.mem_cons.1 hd with rfl | hd
      · exact isPlain_of_ofMark? hs hm hq hc
      · exact List.all_eq_true.1 List.all_takeWhile d hd
    · rw [text, List.cons_append, List.takeWhile_append_dropWhile]

/-- **The first token of a text** is the one that it begins with and that ends there. -/
theorem lex?_iff {t : Token} {c : Char} {r rest : List Char} (hs : Text.isSeparator c = false) :
    lex? c r = some (t, rest) ↔ t.WellFormed ∧ t.EndsAt rest ∧ c :: r = t.text ++ rest := by
  refine ⟨of_lex? hs, fun ⟨hw, he, split⟩ => ?_⟩
  obtain ⟨d, r', ht, -⟩ := text_eq_cons hw
  rw [ht] at split
  cases split
  exact lex?_of_text hw he ht

/-- There is no first token only where a literal has no end. -/
theorem lex?_eq_none_iff {c : Char} {r : List Char} : lex? c r = none ↔ c = '"' ∧ untilQuote? r = none := by
  unfold lex?
  split
  · next hq => simp [hq]
  · next hq =>
    simp only [hq, false_and, iff_false]
    repeat' split
    all_goals simp

/-! ## All tokens -/

theorem scan?_eq (s : List Char) :
    scan? s =
      match s.dropWhile Text.isSeparator with
      | [] => some []
      | c :: r => (lex? c r).bind fun p => (scan? p.2).map (p.1 :: ·) := by
  rw [scan?.eq_def]
  split
  · next hs => rw [hs]
  · next c r hs =>
    rw [hs]
    split
    · next hl => simp [hl]
    · next hl => simp [hl]

theorem scan?_nil : scan? [] = some [] := scan?_eq []

/-- A separator is skipped. -/
theorem scan?_separator {c : Char} (h : Text.isSeparator c = true) (s : List Char) : scan? (c :: s) = scan? s := by
  rw [scan?_eq, scan?_eq s, List.dropWhile_cons_of_pos h]

/-- Separators are skipped. -/
theorem scan?_separators {seps : List Char} (h : ∀ c ∈ seps, Text.isSeparator c = true) (s : List Char) :
    scan? (seps ++ s) = scan? s := by
  rw [scan?_eq, scan?_eq s, List.dropWhile_append_of_pos h]

/-- Any other character begins a token. -/
theorem scan?_cons {c : Char} (h : Text.isSeparator c = false) (s : List Char) :
    scan? (c :: s) = (lex? c s).bind fun p => (scan? p.2).map (p.1 :: ·) := by
  rw [scan?_eq, List.dropWhile_cons_of_neg (by simp [h])]

/-- **A token that is written** is scanned as itself before anything that it ends at. -/
theorem scan?_text {t : Token} {rest : List Char} (hw : t.WellFormed) (he : t.EndsAt rest) :
    scan? (t.text ++ rest) = (scan? rest).map (t :: ·) := by
  obtain ⟨c, r, ht, hs⟩ := text_eq_cons hw
  rw [ht, List.cons_append, scan?_cons hs, lex?_of_text hw he ht]
  rfl

theorem scan?_mark {c : Char} {t : Token} (h : ofMark? c = some t) (ht : c ≠ '~') (s : List Char) :
    scan? (c :: s) = (scan? s).map (t :: ·) := by
  have hq : c ≠ '"' := by rintro rfl; cases h
  have hc : c ≠ ';' := by rintro rfl; cases h
  rw [scan?_cons (isSeparator_of_ofMark? h)]
  simp [lex?, h, ht, hq, hc]

theorem scan?_literal (s rest : List Char) :
    scan? (Text.Quoted.literal s ++ rest) = (scan? rest).map (string (Text.Quoted.encode s) :: ·) :=
  scan?_text (t := string (Text.Quoted.encode s)) (enclosed_encode s) trivial

theorem scan?_run {chars rest : List Char} (h : IsRun chars) (hr : Stops rest) :
    scan? (chars ++ rest) = (scan? rest).map (plain chars :: ·) :=
  scan?_text (t := plain chars) h hr

/-- What is scanned can be written. -/
theorem wellFormed_of_scan? {s : List Char} {tokens : List Token} (h : scan? s = some tokens) :
    ∀ t ∈ tokens, t.WellFormed := by
  fun_induction scan? s generalizing tokens with
  | case1 => cases h; simp
  | case2 => cases h
  | case3 s c r hdrop t rest hl ih =>
    obtain ⟨ts, hts, rfl⟩ := Option.map_eq_some_iff.1 h
    have hs : Text.isSeparator c = false := head?_dropWhile s c (by rw [hdrop]; rfl)
    intro t' ht'
    rcases List.mem_cons.1 ht' with rfl | ht'
    · exact (of_lex? hs hl).1
    · exact ih hts t' ht'

end Token

end MiniLisp

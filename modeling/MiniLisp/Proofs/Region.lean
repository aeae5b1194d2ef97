import MiniLisp.Proofs.Scan

/-!
# Where the literals of a text are

The rules by which a text is divided, one character after another (`Region.next`): a quote opens a literal, a semicolon
a comment that the line ends; in a literal a backslash takes the next character along, whatever it is, and the first
other quote closes it. Scanning goes by these rules but for one thing: it stops at a backslash in a literal that stands
before a line break.

* `scan?_eq_none_iff`: scanning fails exactly if a literal is open at the end or a backslash escapes a line break.
* `scan?_append`: what is scanned is scanned in the same way before anything that begins no part of it.
-/

namespace MiniLisp

/-- What a part of a text belongs to. -/
inductive Region
  /-- A token that is neither a literal nor a comment, or separators. -/
  | outside
  | comment
  | literal
  /-- A literal, right after a backslash that takes the next character along. -/
  | escape
  deriving DecidableEq

namespace Region

/-- What comes after a character. -/
def next : Region → Char → Region
  | outside, '"' => literal
  | outside, ';' => comment
  | outside, _ => outside
  | comment, '\n' => outside
  | comment, _ => comment
  | literal, '"' => outside
  | literal, '\\' => escape
  | literal, _ => literal
  | escape, _ => literal

/-- What comes after a text. -/
def after (p : Region) (s : List Char) : Region := s.foldl next p

def inLiteral : Region → Bool
  | literal | escape => true
  | outside | comment => false

/-- A literal is open at the end of a text, or a backslash in a literal stands before a line break. -/
def Unclosed (p : Region) (s : List Char) : Prop :=
  (p.after s).inLiteral = true ∨ ∃ q r, s = q ++ '\n' :: r ∧ p.after q = escape

variable {p : Region} {c : Char} {s t : List Char}

/-- A text is gone through part by part. -/
theorem after_append (p : Region) (s t : List Char) : p.after (s ++ t) = (p.after s).after t := List.foldl_append

theorem unclosed_nil : p.Unclosed [] ↔ p.inLiteral = true := by simp [Unclosed, after]

/-- A text is left unclosed by a line break after a backslash, or by what follows its first character. -/
theorem unclosed_cons : p.Unclosed (c :: s) ↔ p = escape ∧ c = '\n' ∨ (p.next c).Unclosed s := by
  constructor
  · rintro (inside | ⟨q, r, split, escaped⟩)
    · exact .inr (.inl inside)
    · cases q with
      | nil => cases split; exact .inl ⟨escaped, rfl⟩
      | cons d q => cases split; exact .inr (.inr ⟨q, r, rfl, escaped⟩)
  · rintro (⟨rfl, rfl⟩ | inside | ⟨q, r, rfl, escaped⟩)
    · exact .inr ⟨[], s, rfl, rfl⟩
    · exact .inl inside
    · exact .inr ⟨c :: q, r, rfl, escaped⟩

/-! ## Parts that nothing changes in -/

/-- Characters that change nothing may be gone through together. -/
theorem after_of_stays (h : ∀ c ∈ s, p.next c = p) : p.after s = p := by
  induction s with
  | nil => rfl
  | cons c s ih =>
    rw [after, List.foldl_cons, h c List.mem_cons_self]
    exact ih fun d hd => h d (List.mem_cons_of_mem _ hd)

/-- Such characters in front leave nothing unclosed. -/
theorem unclosed_append_of_stays (h : ∀ c ∈ s, p.next c = p) (hp : p ≠ escape) (t : List Char) :
    p.Unclosed (s ++ t) ↔ p.Unclosed t := by
  induction s with
  | nil => rfl
  | cons c s ih =>
    rw [List.cons_append, unclosed_cons, h c List.mem_cons_self, ih fun d hd => h d (List.mem_cons_of_mem _ hd)]
    simp [hp]

theorem next_outside (hq : c ≠ '"') (hs : c ≠ ';') : outside.next c = outside := by
  unfold next
  split <;> simp_all

theorem next_of_isSeparator (h : Text.isSeparator c = true) : outside.next c = outside := by
  apply next_outside <;> rintro rfl <;> revert h <;> decide

theorem next_of_isPlain (h : isPlain c = true) : outside.next c = outside :=
  next_outside (ne_of_isPlain h).1 (ne_of_isPlain h).2

/-- Separators leave a scan outside of every literal. -/
theorem after_separators (h : ∀ c ∈ s, Text.isSeparator c = true) : outside.after s = outside :=
  after_of_stays fun c hc => next_of_isSeparator (h c hc)

theorem unclosed_separators (h : ∀ c ∈ s, Text.isSeparator c = true) (t : List Char) :
    outside.Unclosed (s ++ t) ↔ outside.Unclosed t :=
  unclosed_append_of_stays (fun c hc => next_of_isSeparator (h c hc)) (by decide) t

theorem next_comment (h : c ≠ '\n') : comment.next c = comment := by
  unfold next
  split <;> simp_all

/-- Inside a literal only a backslash and a quote count. -/
theorem next_literal (hb : c ≠ '\\') (hq : c ≠ '"') : literal.next c = literal := by
  unfold next
  split <;> simp_all

/-! ## Literals -/

/-- The contents of a literal lead back into the literal. -/
theorem after_enclosed {contents : List Char} (h : Enclosed contents) : literal.after contents = literal := by
  induction h with
  | nil => rfl
  | pair _ _ ih => exact ih
  | char hb hq _ ih =>
    rw [after, List.foldl_cons, next_literal hb hq]
    exact ih

/-- After its contents and the quote, a literal is left and the rest decides. -/
theorem unclosed_enclosed {contents : List Char} (h : Enclosed contents) (rest : List Char) :
    literal.Unclosed (contents ++ '"' :: rest) ↔ outside.Unclosed rest := by
  induction h with
  | nil => simp [unclosed_cons, next]
  | pair hc _ ih => simpa [unclosed_cons, next, hc] using ih
  | char hb hq _ ih =>
    rw [List.cons_append, unclosed_cons, next_literal hb hq, ih]
    simp

/-- Where no closing quote is found the literal stays open, or is broken off at an escaped line break. -/
theorem unclosed_of_untilQuote? (h : untilQuote? s = none) : literal.Unclosed s := by
  fun_induction untilQuote? s with
  | case1 => exact unclosed_nil.2 rfl
  | case2 r => cases h
  | case3 => exact .inl rfl
  | case4 r => exact .inr ⟨['\\'], r, rfl, rfl⟩
  | case5 c r _ ih =>
    have rest := ih (Option.map_eq_none_iff.1 h)
    simp [unclosed_cons, next, rest]
  | case6 c r hquote hlone hescape ih =>
    have hb : c ≠ '\\' := by
      rintro rfl
      cases r with
      | nil => exact hlone rfl rfl
      | cons d r => exact hescape d r rfl rfl
    rw [unclosed_cons, next_literal hb hquote]
    exact .inr (ih (Option.map_eq_none_iff.1 h))

/-! ## What follows -/

theorem inLiteral_next (h : p.inLiteral = true) (hc : c ≠ '"') : (p.next c).inLiteral = true := by
  cases p with
  | outside => cases h
  | comment => cases h
  | escape => rfl
  | literal =>
    unfold next
    split <;> simp_all [inLiteral]

/-- What is open stays open while no quote follows. -/
theorem Unclosed.append (h : p.Unclosed s) (ht : '"' ∉ t) : p.Unclosed (s ++ t) := by
  have stays {q : Region} (hq : q.inLiteral = true) : (q.after t).inLiteral = true := by
    induction t generalizing q with
    | nil => exact hq
    | cons c t ih =>
      have hc : c ≠ '"' := fun hc => ht (hc ▸ List.mem_cons_self)
      exact ih (fun hm => ht (List.mem_cons_of_mem _ hm)) (inLiteral_next hq hc)
  rcases h with inside | ⟨q, r, rfl, escaped⟩
  · exact .inl (by rw [after_append]; exact stays inside)
  · exact .inr ⟨q, r ++ t, by simp, escaped⟩

/-- No part that ends in this region goes on with what follows. -/
def StopsAt : Region → List Char → Prop
  | comment, rest => ∀ c ∈ rest.head?, c = '\n'
  | _, rest => ∀ c ∈ rest.head?, isPlain c = false ∧ c ≠ '@'

/-- What stops a token stops nothing else. -/
theorem StopsAt.outside {rest : List Char} (h : p.StopsAt rest) : outside.StopsAt rest := by
  cases p with
  | comment =>
    intro c hc
    obtain rfl := h c hc
    decide
  | _ => exact h

end Region

namespace Token

open Region (outside)

variable {t : Token} {s rest rest' : List Char} {ts : List Token}

/-- What a token ends in. -/
def region : Token → Region
  | comment _ => .comment
  | _ => .outside

theorem endsAt_of_stopsAt (h : t.region.StopsAt rest) : t.EndsAt rest := by
  cases t with
  | comment => exact h
  | plain chars => exact fun c hc => (h c hc).1
  | shorthand s =>
    cases s with
    | unquote => exact fun c hc => (h c hc).2
    | _ => trivial
  | _ => trivial

/-- Where a token ends depends on one character. -/
theorem EndsAt.congr (he : t.EndsAt rest) (h : rest.head? = rest'.head?) : t.EndsAt rest' := by
  unfold EndsAt at he ⊢
  split <;> simp_all [Stops]

/-- The text of a token leads to the region the token ends in. -/
theorem after_text (hw : t.WellFormed) : outside.after t.text = t.region := by
  cases t with
  | opening b => cases b <;> rfl
  | closing b => cases b <;> rfl
  | shorthand s => cases s <;> rfl
  | caret => rfl
  | string contents =>
    rw [text, List.cons_append, Region.after, List.foldl_cons, ← Region.after, Region.after_append]
    exact congrArg (Region.after · ['"']) (Region.after_enclosed hw)
  | comment contents =>
    exact Region.after_of_stays (p := .comment) fun c hc => Region.next_comment fun h => hw (h ▸ hc)
  | plain chars => exact Region.after_of_stays fun c hc => Region.next_of_isPlain (hw.plain c hc)

/-- A token is no part of a literal that does not end. -/
theorem unclosed_text (hw : t.WellFormed) (he : t.EndsAt rest) :
    outside.Unclosed (t.text ++ rest) ↔ outside.Unclosed rest := by
  have alone {c : Char} (h : outside.next c = outside) : outside.Unclosed ([c] ++ rest) ↔ outside.Unclosed rest :=
    Region.unclosed_append_of_stays (by simpa using h) (by decide) rest
  cases t with
  | opening b => exact alone (by cases b <;> rfl)
  | closing b => exact alone (by cases b <;> rfl)
  | caret => exact alone rfl
  | shorthand s =>
    cases s with
    | spliceUnquote =>
      exact Region.unclosed_append_of_stays (s := ['~', '@']) (by simp [Region.next]) (by decide) rest
    | _ => exact alone rfl
  | string contents =>
    rw [text, List.append_assoc, List.cons_append, Region.unclosed_cons]
    simpa [Region.next] using Region.unclosed_enclosed hw rest
  | comment contents =>
    have line : Region.comment.Unclosed (contents ++ rest) ↔ Region.comment.Unclosed rest :=
      Region.unclosed_append_of_stays (fun c hc => Region.next_comment fun h => hw (h ▸ hc)) (by decide) rest
    have ended : Region.comment.Unclosed rest ↔ outside.Unclosed rest := by
      cases rest with
      | nil => simp [Region.unclosed_nil, Region.inLiteral]
      | cons c rest =>
        obtain rfl := he c rfl
        simp [Region.unclosed_cons, Region.next]
    rw [text, List.cons_append, Region.unclosed_cons]
    simpa [Region.next] using line.trans ended
  | plain chars =>
    exact Region.unclosed_append_of_stays (fun c hc => Region.next_of_isPlain (hw.plain c hc)) (by decide) rest

/-- **Scanning fails** exactly if a literal is open at the end or a backslash in a literal stands before a line
break. -/
theorem scan?_eq_none_iff : scan? s = none ↔ outside.Unclosed s := by
  fun_induction scan? s with
  | case1 s hs =>
    obtain ⟨seps, hseps, split⟩ := exists_separators s
    rw [split, hs, Region.unclosed_separators hseps]
    simp [Region.unclosed_nil, Region.inLiteral]
  | case2 s c r hs hl =>
    obtain ⟨seps, hseps, split⟩ := exists_separators s
    obtain ⟨rfl, unended⟩ := lex?_eq_none_iff.1 hl
    rw [split, hs, Region.unclosed_separators hseps, Region.unclosed_cons]
    simpa [Region.next] using Region.unclosed_of_untilQuote? unended
  | case3 s c r hs t rest hl ih =>
    obtain ⟨seps, hseps, split⟩ := exists_separators s
    obtain ⟨hw, he, first⟩ := of_lex? (head?_dropWhile s c (by rw [hs]; rfl)) hl
    rw [split, hs, Region.unclosed_separators hseps, first, unclosed_text hw he]
    exact Option.map_eq_none_iff.trans ih

/-- Once a token has ended, the scan is outside, as before it. -/
theorem after_text_append (hw : t.WellFormed) (he : t.EndsAt s) (hs : s ≠ []) :
    outside.after (t.text ++ s) = outside.after s := by
  rw [Region.after_append, after_text hw]
  cases t with
  | comment =>
    obtain ⟨c, s, rfl⟩ := List.exists_cons_of_ne_nil hs
    obtain rfl := he c rfl
    rfl
  | _ => rfl

/-- **What is scanned** is scanned in the same way before anything that goes on with no part of it. -/
theorem scan?_append (hs : scan? s = some ts) (hr : (outside.after s).StopsAt rest) :
    scan? (s ++ rest) = (scan? rest).map (ts ++ ·) := by
  fun_induction scan? s generalizing ts with
  | case1 s h =>
    cases hs
    obtain ⟨seps, hseps, split⟩ := exists_separators s
    rw [split, h, List.append_nil, scan?_separators hseps]
    simp
  | case2 => cases hs
  | case3 s c r h t s' hl ih =>
    obtain ⟨us, hus, rfl⟩ := Option.map_eq_some_iff.1 hs
    obtain ⟨seps, hseps, split⟩ := exists_separators s
    obtain ⟨hw, he, first⟩ := of_lex? (head?_dropWhile s c (by rw [h]; rfl)) hl
    rw [split, h, first, Region.after_append, Region.after_separators hseps] at hr
    -- what the token ends in is behind the text only if nothing comes after the token
    have ends : t.EndsAt (s' ++ rest) ∧ (outside.after s').StopsAt rest := by
      cases s' with
      | nil =>
        rw [List.append_nil, after_text hw] at hr
        exact ⟨endsAt_of_stopsAt hr, hr.outside⟩
      | cons d s' => exact ⟨he.congr rfl, after_text_append hw he (by simp) ▸ hr⟩
    rw [split, h, first, List.append_assoc, List.append_assoc, scan?_separators hseps, scan?_text hw ends.1,
      ih hus ends.2]
    simp [Function.comp_def]

end Token

end MiniLisp

import Mathlib
import MiniLisp.Proofs.Parsing
import MiniLisp.Proofs.Region

/-!
# Layout

A text is its tokens with something between them (`laidOut`). Scanning keeps all of it: what stands between the tokens
that it finds are separators (`exists_laidOut`). The other way round, what stands between tokens makes no difference
as long as it is something: separators, and comments that the line ends (`Gap`, `IsLayout`).

* `scan?_laidOut`: tokens that are laid out are the tokens that are found, comments apart.
* `layout_makes_no_difference`: so all layouts of the same tokens read alike.
-/

namespace MiniLisp

open Token (uncommented)

/-- Texts one after another, each with what stands behind it, and what stands before all of them. -/
def laidOut (lead : List Char) : List (List Char) → List (List Char) → List Char
  | text :: texts, gap :: gaps => lead ++ text ++ laidOut gap texts gaps
  | _, _ => lead

/-- Separators and comments that the line ends. -/
inductive Gap : List Char → Prop
  | nil : Gap []
  | separator {c : Char} {s : List Char} (hc : Text.isSeparator c = true) (h : Gap s) : Gap (c :: s)
  | comment {contents s : List Char} (hc : '\n' ∉ contents) (h : Gap s) : Gap (';' :: (contents ++ '\n' :: s))

/-- What can stand before the first, and behind each, of so many tokens: between two of them it is something. -/
structure IsLayout (n : Nat) (lead : List Char) (gaps : List (List Char)) : Prop where
  length : gaps.length = n
  gap : ∀ gap ∈ lead :: gaps, Gap gap
  between : ∀ gap ∈ gaps.dropLast, gap ≠ []

/-- A text that is a token, which is no comment. -/
structure Token.Alone (text : List Char) (t : Token) : Prop where
  scanned : scan? text = some [t]
  noComment : t.isComment = false

variable {t : Token} {s lead gap text rest : List Char} {texts gaps : List (List Char)} {ts ts' : List Token}

theorem exists_laidOut_eq_append (lead : List Char) (texts gaps : List (List Char)) :
    ∃ rest, laidOut lead texts gaps = lead ++ rest := by
  unfold laidOut
  split
  · exact ⟨_, List.append_assoc _ _ _⟩
  · exact ⟨[], (List.append_nil _).symm⟩

/-! ## What is found in a text -/

/-- **The tokens of a text** are all of it but for separators. -/
theorem exists_laidOut (h : Token.scan? s = some ts) :
    ∃ lead gaps, gaps.length = ts.length ∧ (∀ gap ∈ lead :: gaps, ∀ c ∈ gap, Text.isSeparator c = true) ∧
      s = laidOut lead (ts.map Token.text) gaps := by
  fun_induction Token.scan? s generalizing ts with
  | case1 s hs =>
    cases h
    obtain ⟨seps, hseps, split⟩ := exists_separators s
    exact ⟨seps, [], rfl, by simpa using hseps, by simpa [hs, laidOut] using split⟩
  | case2 => cases h
  | case3 s c r hs t s' hl ih =>
    obtain ⟨us, hus, rfl⟩ := Option.map_eq_some_iff.1 h
    obtain ⟨seps, hseps, split⟩ := exists_separators s
    obtain ⟨-, -, first⟩ := Token.of_lex? (head?_dropWhile s c (by rw [hs]; rfl)) hl
    obtain ⟨lead, gaps, hlength, hgaps, hlaid⟩ := ih hus
    refine ⟨seps, lead :: gaps, by simp [hlength], List.forall_mem_cons.2 ⟨hseps, hgaps⟩, ?_⟩
    rw [split, hs, first, hlaid, List.map_cons, laidOut, List.append_assoc]

/-- A text that is one token ends outside, unless the token is a comment. -/
theorem Token.Alone.after (h : Token.Alone text t) : Region.outside.after text = .outside := by
  obtain ⟨lead, gaps, hlength, hgaps, rfl⟩ := exists_laidOut h.scanned
  obtain ⟨gap, rfl⟩ := List.length_eq_one_iff.1 hlength
  obtain ⟨hlead, hgap⟩ := List.forall_mem_cons.1 hgaps
  have outside : t.region = .outside := by
    cases t with
    | comment => cases h.noComment
    | _ => rfl
  have wellFormed := Token.wellFormed_of_scan? h.scanned t (List.mem_singleton_self t)
  simp only [List.map_cons, List.map_nil, laidOut, Region.after_append, Region.after_separators hlead,
    Token.after_text wellFormed, outside]
  exact Region.after_separators (hgap gap List.mem_cons_self)

/-! ## What is laid out -/

theorem Gap.uncommented (h : Gap gap) (s : List Char) :
    (Token.scan? (gap ++ s)).map Token.uncommented = (Token.scan? s).map Token.uncommented := by
  induction h with
  | nil => rfl
  | separator hc _ ih => rw [List.cons_append, Token.scan?_separator hc, ih]
  | @comment contents r hc _ ih =>
    have ended : (Token.comment contents).EndsAt ('\n' :: (r ++ s)) := fun c hc => by cases hc; rfl
    have found := Token.scan?_text (t := .comment contents) hc ended
    rw [Token.scan?_separator (by decide)] at found
    have split : ';' :: (contents ++ '\n' :: r) ++ s = (Token.comment contents).text ++ '\n' :: (r ++ s) := by
      simp [Token.text]
    rw [split, found, Option.map_map, ← ih]
    rfl

/-- No token goes on with what stands between tokens. -/
theorem Gap.stopsAt (h : Gap gap) (hg : gap ≠ []) (rest : List Char) : Region.outside.StopsAt (gap ++ rest) := by
  cases h with
  | nil => exact absurd rfl hg
  | @separator c s hc =>
    rintro d ⟨⟩
    refine ⟨by simp [isPlain, hc], ?_⟩
    rintro rfl
    revert hc
    decide
  | comment => rintro d ⟨⟩; decide

theorem IsLayout.tail {n : Nat} (h : IsLayout (n + 1) lead (gap :: gaps)) : IsLayout n gap gaps where
  length := Nat.succ.inj h.length
  gap := (List.forall_mem_cons.1 h.gap).2
  between := by
    intro g hg
    cases gaps with
    | nil => cases hg
    | cons => exact h.between g (List.mem_cons_of_mem _ hg)

/-- Where a token is laid out, it does not go on with what follows. -/
theorem IsLayout.stopsAt (h : IsLayout (texts.length + 1) lead (gap :: gaps)) :
    Region.outside.StopsAt (laidOut gap texts gaps) := by
  by_cases hg : gap = []
  · have last : gaps = [] := by
      cases gaps with
      | nil => rfl
      | cons => exact absurd hg (h.between gap List.mem_cons_self)
    subst hg last
    cases texts <;> rintro c ⟨⟩
  · obtain ⟨rest, split⟩ := exists_laidOut_eq_append gap texts gaps
    rw [split]
    exact (h.gap gap (by simp)).stopsAt hg rest

/-- **Tokens that are laid out** are the ones that are found, comments apart. -/
theorem scan?_laidOut (h : List.Forall₂ Token.Alone texts ts) (hl : IsLayout texts.length lead gaps) :
    (Token.scan? (laidOut lead texts gaps)).map uncommented = some ts := by
  induction h generalizing lead gaps with
  | nil =>
    have found := (hl.gap lead List.mem_cons_self).uncommented []
    rw [List.append_nil, Token.scan?_nil] at found
    exact found
  | @cons text t texts ts ht _ ih =>
    obtain ⟨gap, gaps, rfl⟩ := List.exists_cons_of_length_eq_add_one hl.length
    have stops : (Region.outside.after text).StopsAt (laidOut gap texts gaps) := by
      rw [ht.after]
      exact hl.stopsAt
    rw [laidOut, List.append_assoc, (hl.gap lead List.mem_cons_self).uncommented, Token.scan?_append ht.scanned stops,
      Option.map_map]
    have kept : uncommented ∘ ([t] ++ ·) = (t :: ·) ∘ uncommented := by
      funext us
      exact Token.uncommented_cons ht.noComment us
    rw [kept, ← Option.map_map, ih hl.tail]
    rfl

/-! ## Reading -/

/-- Tokens that are written stand alone. -/
theorem forall₂_alone {ts : List Token} (h : ∀ t ∈ ts, t.WellFormed ∧ t.isComment = false) :
    List.Forall₂ Token.Alone (ts.map Token.text) ts := by
  refine List.forall₂_map_left_iff.2 (List.forall₂_same.2 fun t ht => ⟨?_, (h t ht).2⟩)
  have ends : t.EndsAt [] := by
    cases t with
    | shorthand s => cases s <;> simp [Token.EndsAt]
    | _ => simp [Token.EndsAt, Stops]
  simpa [Token.scan?_nil] using Token.scan?_text (h t ht).1 ends

/-- **Layout makes no difference**: whatever stands between tokens, they are the tokens that are found, comments left
out; so all layouts of the same tokens read alike. -/
theorem layout_makes_no_difference {texts : List (List Char)} {ts : List Token}
    (h : List.Forall₂ Token.Alone texts ts) :
    (∀ lead gaps, IsLayout texts.length lead gaps →
      ∃ us, Token.scan? (laidOut lead texts gaps) = some us ∧ uncommented us = ts) ∧
    ∀ texts' lead gaps lead' gaps', List.Forall₂ Token.Alone texts' ts → IsLayout texts.length lead gaps →
      IsLayout texts'.length lead' gaps' →
      Value.read? (laidOut lead texts gaps) = Value.read? (laidOut lead' texts' gaps') := by
  have found {texts : List (List Char)} {lead : List Char} {gaps : List (List Char)}
      (h : List.Forall₂ Token.Alone texts ts) (hl : IsLayout texts.length lead gaps) :
      ∃ us, Token.scan? (laidOut lead texts gaps) = some us ∧ uncommented us = ts :=
    Option.map_eq_some_iff.1 (scan?_laidOut h hl)
  refine ⟨fun lead gaps hl => found h hl, fun texts' lead gaps lead' gaps' h' hl hl' => ?_⟩
  obtain ⟨us, hus, same⟩ := found h hl
  obtain ⟨us', hus', same'⟩ := found h' hl'
  rw [read?_eq_of_scan? hus, read?_eq_of_scan? hus', same, same']

/-- Comments right behind a plain run and a tilde, and a literal that holds all that separates. -/
theorem layout_makes_no_difference_spread :
    Value.read? "( a;b\n~ @\n\"c; ,\n\" )".toList = Value.read? ",(\na,~;@\n@;\n\"c; ,\n\" ) ".toList := by
  have literal : Enclosed ['c', ';', ' ', ',', '\n'] :=
    (enclosed_of_untilQuote? (s := "c; ,\n\"".toList) (p := (['c', ';', ' ', ',', '\n'], [])) (by cbv)).1
  have tokens : List.Forall₂ Token.Alone _ [.opening .round, .plain ['a'], .shorthand .unquote, .shorthand .deref,
      .string ['c', ';', ' ', ',', '\n'], .closing .round] := forall₂_alone <| by
    simp only [List.forall_mem_cons]
    exact ⟨⟨trivial, rfl⟩, ⟨⟨List.all_eq_true.1 rfl, _, _, rfl, rfl⟩, rfl⟩, ⟨trivial, rfl⟩, ⟨trivial, rfl⟩,
      ⟨literal, rfl⟩, ⟨trivial, rfl⟩, by simp⟩
  have blank {c : Char} (hc : Text.isSeparator c = true) : Gap [c] := .separator hc .nil
  have line (contents : List Char) (hc : '\n' ∉ contents) : Gap (';' :: (contents ++ ['\n'])) := .comment hc .nil
  have narrow : IsLayout 6 [] [[' '], [';', 'b', '\n'], [' '], ['\n'], [' '], []] := by
    refine ⟨rfl, ?_, by decide⟩
    simp only [List.forall_mem_cons]
    exact ⟨.nil, blank rfl, line ['b'] (by decide), blank rfl, blank rfl, blank rfl, .nil, by simp⟩
  have wide : IsLayout 6 [','] [['\n'], [','], [';', '@', '\n'], [';', '\n'], [' '], [' ']] := by
    refine ⟨rfl, ?_, by decide⟩
    simp only [List.forall_mem_cons]
    exact ⟨blank rfl, blank rfl, blank rfl, line ['@'] (by decide), line [] (by decide), blank rfl, blank rfl, by simp⟩
  exact (layout_makes_no_difference tokens).2 _ _ _ _ _ tokens narrow wide

end MiniLisp

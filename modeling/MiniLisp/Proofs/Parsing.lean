import Mathlib
import MiniLisp.Proofs.Grammar

/-!
# What is read is spelled

The other way round of `run_form`: the reader takes no tokens together but those that spell a form. While it goes on,
the tokens so far are those that its stack was made of (`Opens`); a form that is complete is spelled by the tokens
since the place where it began. Comments make no difference (`run_uncommented`).

* `form_of_read?`: what is read from a text is spelled by its first tokens.
* `ne_nothingToRead_of_run`: a text in which something is open is not empty.
-/

namespace MiniLisp

namespace Token

def isComment : Token → Bool
  | comment _ => true
  | _ => false

/-- Tokens with the comments left out. -/
def uncommented (ts : List Token) : List Token := ts.filter fun t => !t.isComment

theorem uncommented_cons {t : Token} (h : t.isComment = false) (ts : List Token) :
    uncommented (t :: ts) = t :: uncommented ts := by simp [uncommented, h]

theorem uncommented_uncommented (ts : List Token) : uncommented (uncommented ts) = uncommented ts := by
  simp [uncommented]

end Token

/-- A text that spells forms, one after another, once its comments are left out. -/
def FormsOf (s : List Char) (vs : List Value) : Prop :=
  ∃ ts, Token.scan? s = some ts ∧ Forms (Token.uncommented ts) vs

namespace Reader

open Token (uncommented)

variable {token : Token} {tokens rest ps us : List Token} {stack stack' : List Pending} {v : Value}
  {b : Bracket} {items : List Value} {fault : ReadError}

/-! ## One token at a time -/

/-- What a bracket makes of its elements. -/
theorem close_eq_ok (h : close b items = .ok v) :
    b = .round ∧ v = .list items ∨ b = .square ∧ v = .vector items ∨
      ∃ es, b = .curly ∧ Entries.ofItems? items = .ok es ∧ v = .map es := by
  cases b with
  | round => cases h; exact .inl ⟨rfl, rfl⟩
  | square => cases h; exact .inr (.inl ⟨rfl, rfl⟩)
  | curly =>
    simp only [close] at h
    split at h
    · next es hes => cases h; exact .inr (.inr ⟨es, rfl, hes, rfl⟩)
    · cases h

/-- Nothing but braces asks anything of its elements. -/
theorem close_eq_error (h : close b items = .error fault) :
    b = .curly ∧ ∃ cause, Entries.ofItems? items = .error cause ∧ fault = .badMap cause := by
  cases b with
  | round => cases h
  | square => cases h
  | curly =>
    simp only [close] at h
    split at h
    · cases h
    · next cause hc => cases h; exact ⟨rfl, cause, hc, rfl⟩

/-- A token completes the bracket on top of the stack, or it is a form on its own. -/
theorem complete_eq_ok (h : complete token stack = .ok (v, stack')) :
    (∃ b items, token = .closing b ∧ stack = .bracket b items :: stack' ∧ close b items.reverse = .ok v) ∨
      leaf token = .ok v ∧ stack' = stack := by
  unfold complete at h
  split at h
  · next b b' items rest =>
    split at h
    · next hb =>
      subst hb
      cases hv : close b items.reverse with
      | ok w => rw [hv] at h; cases h; exact .inl ⟨b, items, rfl, rfl, hv⟩
      | error fault => rw [hv] at h; cases h
    · cases h
  · cases hl : leaf token with
    | ok w => rw [hl] at h; cases h; exact .inr ⟨rfl, rfl⟩
    | error fault => rw [hl] at h; cases h

/-- A token completes nothing if it closes a bracket badly, if it closes what is not open, or if it is no form. -/
theorem complete_eq_error (h : complete token stack = .error fault) :
    (∃ b items rest, token = .closing b ∧ stack = .bracket b items :: rest ∧ close b items.reverse = .error fault) ∨
      (∃ b, token = .closing b ∧ (∀ items rest, stack ≠ .bracket b items :: rest) ∧
        fault = .unexpected b.closeChar) ∨
      (∀ b, token ≠ .closing b) ∧ leaf token = .error fault := by
  unfold complete at h
  split at h
  · next b b' items rest =>
    split at h
    · next hb =>
      subst hb
      cases hv : close b items.reverse with
      | ok w => rw [hv] at h; cases h
      | error fault' => rw [hv] at h; cases h; exact .inl ⟨b, items, rest, rfl, rfl, hv⟩
    · next hb => cases h; exact .inr (.inl ⟨b, rfl, fun items' rest' he => by cases he; exact hb rfl, rfl⟩)
  · next hopen =>
    cases hl : leaf token with
    | ok w => rw [hl] at h; cases h
    | error fault' =>
      rw [hl] at h
      cases h
      by_cases hclosing : ∃ b, token = .closing b
      · obtain ⟨b, rfl⟩ := hclosing
        cases hl
        exact .inr (.inl ⟨b, rfl, fun items rest he => hopen b b items rest rfl he, rfl⟩)
      · exact .inr (.inr ⟨fun b hb => hclosing ⟨b, hb⟩, rfl⟩)

/-- A token that opens nothing and is no comment. -/
structure Completes (token : Token) : Prop where
  comment : ∀ contents, token = .comment contents → False
  opening : ∀ b, token = .opening b → False
  shorthand : ∀ s, token = .shorthand s → False

theorem run_completes (h : Completes token) (rest : List Token) (stack : List Pending) :
    run (token :: rest) stack =
      match complete token stack with
      | .error fault => .error fault
      | .ok (v, stack) => resume v rest stack := by
  cases token with
  | comment contents => exact absurd rfl (h.comment contents)
  | opening b => exact absurd rfl (h.opening b)
  | shorthand s => exact absurd rfl (h.shorthand s)
  | _ => rfl

theorem Completes.isComment (h : Completes token) : token.isComment = false := by
  cases token with
  | comment contents => exact absurd rfl (h.comment contents)
  | _ => rfl

/-- Comments are left out as the reader goes. -/
theorem run_uncommented (tokens : List Token) (stack : List Pending) :
    run (uncommented tokens) stack = (run tokens stack).map fun p => (p.1, uncommented p.2) := by
  fun_induction run tokens stack with
  | case1 => rfl
  | case2 => rfl
  | case3 _ rest stack ih => exact ih
  | case4 b rest stack ih =>
    rw [Token.uncommented_cons rfl]
    exact ih
  | case5 s rest stack ih =>
    rw [Token.uncommented_cons rfl]
    exact ih
  | case6 token rest stack hc ho hs fault hcomp =>
    have h : Completes token := ⟨hc, ho, hs⟩
    rw [Token.uncommented_cons h.isComment, run_completes h, hcomp]
    rfl
  | case7 token rest stack hc ho hs v stack' hcomp w hdel =>
    have h : Completes token := ⟨hc, ho, hs⟩
    rw [Token.uncommented_cons h.isComment, run_completes h, hcomp]
    simp only [resume, hdel]
    rfl
  | case8 token rest stack hc ho hs v stack' hcomp stack'' hdel ih =>
    have h : Completes token := ⟨hc, ho, hs⟩
    rw [Token.uncommented_cons h.isComment, run_completes h, hcomp]
    simp only [resume, hdel]
    exact ih

/-! ## The tokens behind a stack -/

/-- The tokens that a stack was made of. -/
inductive Opens : List Token → List Pending → Prop
  | nil : Opens [] []
  | bracket {ps us : List Token} {items : List Value} {stack : List Pending} (b : Bracket) (h : Opens ps stack)
      (hi : Forms us items.reverse) : Opens (ps ++ .opening b :: us) (.bracket b items :: stack)
  | shorthand {ps : List Token} {stack : List Pending} (s : Shorthand) (h : Opens ps stack) :
      Opens (ps ++ [.shorthand s]) (.shorthand s :: stack)

/-- A complete form goes into what is open, or is all there is. -/
theorem opens_deliver (h : Opens ps stack) (hv : Form us v) :
    match deliver v stack with
    | .inl w => Form (ps ++ us) w
    | .inr stack' => Opens (ps ++ us) stack' := by
  induction h generalizing us v with
  | nil => exact hv
  | bracket b h hi =>
    rw [List.append_assoc, List.cons_append]
    refine .bracket b h ?_
    rw [List.reverse_cons]
    exact forms_append hi (forms_single hv)
  | shorthand s h ih =>
    rw [List.append_assoc]
    exact ih (.shorthand s hv)

theorem form_of_leaf (h : leaf token = .ok v) : Form [token] v := by
  cases token with
  | string contents =>
    simp only [leaf] at h
    split at h
    · next hs => cases h; exact .string hs
    · cases h
  | plain chars => exact .plain h
  | _ => cases h

/-- The form that a token completes is spelled by the tokens since the place where it began. -/
theorem opens_complete (h : Opens ps stack) (hc : complete token stack = .ok (v, stack')) :
    ∃ qs us, ps ++ [token] = qs ++ us ∧ Opens qs stack' ∧ Form us v := by
  rcases complete_eq_ok hc with ⟨b, items, rfl, rfl, hv⟩ | ⟨hl, rfl⟩
  · cases h with
    | bracket b h hi => exact ⟨_, _, by simp, h, .bracket b hi hv⟩
  · exact ⟨ps, [token], rfl, h, form_of_leaf hl⟩

/-- What the reader comes to is spelled by the tokens that its stack was made of and the next ones. -/
theorem form_of_run_opens (hc : uncommented tokens = tokens) (h : Opens ps stack)
    (hr : run tokens stack = .ok (v, rest)) : ∃ us, tokens = us ++ rest ∧ Form (ps ++ us) v := by
  have tail {t : Token} {ts : List Token} (h : uncommented (t :: ts) = t :: ts) : uncommented ts = ts := by
    simp only [uncommented, List.filter_eq_self, List.mem_cons, forall_eq_or_imp] at h ⊢
    exact h.2
  fun_induction run tokens stack generalizing ps with
  | case1 => cases hr
  | case2 => cases hr
  | case3 contents rest stack ih =>
    have kept := List.filter_eq_self.1 hc (.comment contents) List.mem_cons_self
    cases kept
  | case4 b rest stack ih =>
    obtain ⟨us, rfl, hv⟩ := ih (tail hc) (.bracket b h .nil) hr
    exact ⟨.opening b :: us, rfl, by simpa using hv⟩
  | case5 s rest stack ih =>
    obtain ⟨us, rfl, hv⟩ := ih (tail hc) (.shorthand s h) hr
    exact ⟨.shorthand s :: us, rfl, by simpa using hv⟩
  | case6 => cases hr
  | case7 token rest stack _ _ _ w stack' hcomp v' hdel =>
    cases hr
    obtain ⟨qs, us, split, hq, hw⟩ := opens_complete h hcomp
    have delivered := opens_deliver hq hw
    rw [hdel, ← split] at delivered
    exact ⟨[token], rfl, delivered⟩
  | case8 token tail' stack _ _ _ w stack' hcomp stack'' hdel ih =>
    obtain ⟨qs, us, split, hq, hw⟩ := opens_complete h hcomp
    have delivered := opens_deliver hq hw
    rw [hdel, ← split] at delivered
    obtain ⟨us', rfl, hv⟩ := ih (tail hc) delivered hr
    exact ⟨token :: us', rfl, by simpa using hv⟩

/-- What is read is spelled by the first tokens. -/
theorem form_of_run (hc : uncommented tokens = tokens) (hr : run tokens [] = .ok (v, rest)) :
    ∃ us, tokens = us ++ rest ∧ Form us v := form_of_run_opens hc .nil hr

/-! ## Nothing to read -/

theorem leaf_ne_nothingToRead (h : Completes token) : leaf token ≠ .error .nothingToRead := by
  cases token with
  | comment contents => exact absurd rfl (h.comment contents)
  | opening b => exact absurd rfl (h.opening b)
  | shorthand s => exact absurd rfl (h.shorthand s)
  | string contents =>
    intro hl
    simp only [leaf] at hl
    split at hl <;> cases hl
  | plain chars =>
    intro hl
    simp only [leaf, Value.ofPlain?] at hl
    split at hl
    · split at hl <;> cases hl
    · split at hl <;> cases hl
  | _ => simp [leaf]

theorem complete_ne_nothingToRead (h : Completes token) (stack : List Pending) :
    complete token stack ≠ .error .nothingToRead := by
  intro hc
  rcases complete_eq_error hc with ⟨b, items, rest, -, -, hv⟩ | ⟨b, -, -, hf⟩ | ⟨-, hl⟩
  · obtain ⟨-, cause, -, hf⟩ := close_eq_error hv
    cases hf
  · cases hf
  · exact leaf_ne_nothingToRead h hl

theorem deliver_ne_nil (h : deliver v stack = .inr stack') : stack' ≠ [] := by
  fun_induction deliver v stack with
  | case1 => cases h
  | case2 v s stack ih => exact ih h
  | case3 v b items stack =>
    cases h
    simp

/-- The reader finds nothing to read only where nothing is open. -/
theorem ne_nothingToRead_of_run (hs : stack ≠ []) : run tokens stack ≠ .error .nothingToRead := by
  fun_induction run tokens stack with
  | case1 => exact absurd rfl hs
  | case2 => simp
  | case3 _ rest stack ih => exact ih hs
  | case4 b rest stack ih => exact ih (by simp)
  | case5 s rest stack ih => exact ih (by simp)
  | case6 token rest stack hc ho hs' fault hcomp =>
    rintro ⟨rfl⟩
    exact complete_ne_nothingToRead ⟨hc, ho, hs'⟩ stack hcomp
  | case7 => simp
  | case8 token rest stack _ _ _ v stack' _ stack'' hdel ih => exact ih (deliver_ne_nil hdel)

end Reader

/-! ## Texts -/

section

open Token (uncommented)

variable {s : List Char} {ts us : List Token} {v : Value}

/-- What is read from a text depends on its tokens, comments left out. -/
theorem read?_eq_of_scan? (hs : Token.scan? s = some ts) :
    Value.read? s = (Reader.run (uncommented ts) []).map (·.1) := by
  rw [Reader.run_uncommented]
  simp only [Value.read?, hs]
  cases Reader.run ts [] <;> rfl

/-- A text whose first tokens, comments left out, spell a form reads as that form. -/
theorem read?_of_uncommented (hs : Token.scan? s = some ts) (rest : List Token) (hu : uncommented ts = us ++ rest)
    (h : Form us v) : Value.read? s = .ok v := by
  rw [read?_eq_of_scan? hs, hu, Reader.run_form h rest []]
  rfl

/-- What is read is spelled by the first tokens, comments left out. -/
theorem form_of_read? (h : Value.read? s = .ok v) :
    ∃ ts us rest, Token.scan? s = some ts ∧ uncommented ts = us ++ rest ∧ Form us v := by
  cases hs : Token.scan? s with
  | none => simp [Value.read?, hs] at h
  | some ts =>
    rw [read?_eq_of_scan? hs] at h
    cases hr : Reader.run (uncommented ts) [] with
    | error fault => rw [hr] at h; cases h
    | ok p =>
      rw [hr] at h
      cases h
      obtain ⟨us, split, form⟩ := Reader.form_of_run (Token.uncommented_uncommented ts) hr
      exact ⟨ts, us, p.2, rfl, split, form⟩

end

end MiniLisp

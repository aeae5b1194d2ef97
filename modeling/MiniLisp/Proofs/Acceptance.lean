import Mathlib
import MiniLisp.Proofs.Literals
import MiniLisp.Proofs.Parsing

/-!
# What the reader accepts

The grammar of the language, each construct with a rule of its own (`Derives`, `DerivesAll`), and how tokens fail to
begin with a form of it (`Refuses`): there are none, they end while something is open, or after tokens that are fine
so far comes one that nothing can be made of (`Offends`).

* `derives_iff`: the grammar is the one that the reader's own functions carry.
* `run_offends`, `refuses_of_run_opens`: the reader stops at the token that offends, and with its fault.
* `reader_accepts_exactly_its_grammar`: what is read, how much of it, and why nothing else is.
-/

namespace MiniLisp

open Text.Quoted (Spells Faulty)

/-! ## The grammar -/

mutual

/-- The tokens of a form, and what they stand for. -/
inductive Derives : List Token → Value → Prop
  | text {contents s : List Char} (h : Spells contents s) : Derives [.string contents] (.text (String.ofList s))
  | plain {chars : List Char} {v : Value} (h : Literal chars v) : Derives [.plain chars] v
  | shorthand (s : Shorthand) {ts : List Token} {v : Value} (h : Derives ts v) :
      Derives (.shorthand s :: ts) (.list [.symbol s.name, v])
  | list {ts : List Token} {vs : List Value} (h : DerivesAll ts vs) :
      Derives (.opening .round :: (ts ++ [.closing .round])) (.list vs)
  | vector {ts : List Token} {vs : List Value} (h : DerivesAll ts vs) :
      Derives (.opening .square :: (ts ++ [.closing .square])) (.vector vs)
  | map {ts : List Token} {vs : List Value} {es : Entries} (h : DerivesAll ts vs) (he : Entries.SpelledBy vs es) :
      Derives (.opening .curly :: (ts ++ [.closing .curly])) (.map es)

/-- The tokens of forms, one after another. -/
inductive DerivesAll : List Token → List Value → Prop
  | nil : DerivesAll [] []
  | cons {ts us : List Token} {v : Value} {vs : List Value} (h : Derives ts v) (hs : DerivesAll us vs) :
      DerivesAll (ts ++ us) (v :: vs)

end

mutual

theorem form_of_derives {ts : List Token} {v : Value} (h : Derives ts v) : Form ts v := by
  match h with
  | .text h => exact .string (Text.Quoted.decode_eq_ok_iff.2 h)
  | .plain h => exact .plain (Value.ofPlain?_eq_ok_iff.2 h)
  | .shorthand s h => exact .shorthand s (form_of_derives h)
  | .list h => exact .bracket .round (forms_of_derivesAll h) rfl
  | .vector h => exact .bracket .square (forms_of_derivesAll h) rfl
  | .map h he =>
    exact .bracket .curly (forms_of_derivesAll h) (by simp only [Reader.close, Entries.ofItems?_eq_ok_iff.2 he])

theorem forms_of_derivesAll {ts : List Token} {vs : List Value} (h : DerivesAll ts vs) : Forms ts vs := by
  match h with
  | .nil => exact .nil
  | .cons h hs => exact .cons (form_of_derives h) (forms_of_derivesAll hs)

end

mutual

theorem derives_of_form {ts : List Token} {v : Value} (h : Form ts v) : Derives ts v := by
  match h with
  | .string h => exact .text (Text.Quoted.decode_eq_ok_iff.1 h)
  | .plain h => exact .plain (Value.ofPlain?_eq_ok_iff.1 h)
  | .shorthand s h => exact .shorthand s (derives_of_form h)
  | .bracket b h hv =>
    have elements := derivesAll_of_forms h
    rcases Reader.close_eq_ok hv with ⟨rfl, rfl⟩ | ⟨rfl, rfl⟩ | ⟨es, rfl, he, rfl⟩
    · exact .list elements
    · exact .vector elements
    · exact .map elements (Entries.ofItems?_eq_ok_iff.1 he)

theorem derivesAll_of_forms {ts : List Token} {vs : List Value} (h : Forms ts vs) : DerivesAll ts vs := by
  match h with
  | .nil => exact .nil
  | .cons h hs => exact .cons (derives_of_form h) (derivesAll_of_forms hs)

end

/-- The grammar is the one that the reader's functions carry. -/
theorem derives_iff {ts : List Token} {v : Value} : Derives ts v ↔ Form ts v := ⟨form_of_derives, derives_of_form⟩

theorem derivesAll_iff {ts : List Token} {vs : List Value} : DerivesAll ts vs ↔ Forms ts vs :=
  ⟨forms_of_derivesAll, derivesAll_of_forms⟩

/-! ## What is refused -/

/-- Tokens that are fine so far: a form is begun in them and not ended, and this is what is still open, the innermost
first, each bracket with the forms in it, the last first. -/
inductive Begins : List Token → List Pending → Prop
  | nil : Begins [] []
  | bracket {ts us : List Token} {items : List Value} {stack : List Pending} (b : Bracket) (h : Begins ts stack)
      (hi : DerivesAll us items.reverse) : Begins (ts ++ .opening b :: us) (.bracket b items :: stack)
  | shorthand {ts : List Token} {stack : List Pending} (s : Shorthand) (h : Begins ts stack) :
      Begins (ts ++ [.shorthand s]) (.shorthand s :: stack)

/-- A token that cannot stand where this is open, and the fault that it is. -/
inductive Offends : List Pending → Token → ReadError → Prop
  | caret (stack : List Pending) : Offends stack .caret (.unexpected '^')
  | closing {stack : List Pending} {b : Bracket} (h : ∀ items rest, stack ≠ .bracket b items :: rest) :
      Offends stack (.closing b) (.unexpected b.closeChar)
  | string (stack : List Pending) {contents : List Char} {fault : Text.Quoted.Fault} (h : Faulty contents fault) :
      Offends stack (.string contents) (.badString contents fault)
  | plain (stack : List Pending) {chars : List Char} (h : Malformed chars) :
      Offends stack (.plain chars) (.badNumber chars)
  | map {items : List Value} {fault : MapError} (stack : List Pending)
      (h : Entries.Misspelled items.reverse fault) :
      Offends (.bracket .curly items :: stack) (.closing .curly) (.badMap fault)

/-- Tokens that begin with no form, and why. -/
inductive Refuses : List Token → ReadError → Prop
  | nothing : Refuses [] .nothingToRead
  | unfinished {ts : List Token} {top : Pending} {stack : List Pending} (h : Begins ts (top :: stack)) :
      Refuses ts (.unbalanced top.unfinished)
  | offended {ts : List Token} {t : Token} {stack : List Pending} {fault : ReadError} (h : Begins ts stack)
      (ht : Offends stack t fault) (rest : List Token) : Refuses (ts ++ t :: rest) fault

namespace Reader

open Token (uncommented)

variable {token : Token} {tokens ts us rest : List Token} {stack stack' : List Pending} {v : Value} {fault : ReadError}

theorem begins_iff : Begins ts stack ↔ Opens ts stack := by
  constructor
  · intro h
    induction h with
    | nil => exact .nil
    | bracket b _ hi ih => exact .bracket b ih (derivesAll_iff.1 hi)
    | shorthand s _ ih => exact .shorthand s ih
  · intro h
    induction h with
    | nil => exact .nil
    | bracket b _ hi ih => exact .bracket b ih (derivesAll_iff.2 hi)
    | shorthand s _ ih => exact .shorthand s ih

/-- Tokens that are fine so far take the reader to what they leave open. -/
theorem run_begins (h : Begins ts stack) (rest : List Token) : run (ts ++ rest) [] = run rest stack := by
  induction h generalizing rest with
  | nil => rfl
  | @bracket ts us items stack b h hi ih =>
    rw [List.append_assoc, ih, List.cons_append]
    have gathered := run_forms (derivesAll_iff.1 hi) rest b [] stack
    simpa [run] using gathered
  | shorthand s h ih =>
    rw [List.append_assoc, ih]
    rfl

/-- A token that offends stops the reader. -/
theorem run_offends (h : Offends stack token fault) (rest : List Token) : run (token :: rest) stack = .error fault := by
  cases h with
  | caret => cases stack <;> rfl
  | @closing _ b h =>
    have alone : complete (.closing b) stack = .error (.unexpected b.closeChar) := by
      cases stack with
      | nil => rfl
      | cons top stack =>
        cases top with
        | shorthand s => rfl
        | bracket b' items =>
          have hne : b ≠ b' := by rintro rfl; exact h items stack rfl
          simp [complete, hne]
    simp only [run, alone]
  | string stack h =>
    have hd := Text.Quoted.decode_eq_error_iff.2 h
    simp only [run, complete, leaf, hd, Except.map]
  | plain stack h =>
    have hp := Value.ofPlain?_eq_error_iff.2 ⟨rfl, h⟩
    simp only [run, complete, leaf, hp, Except.map]
  | map stack h =>
    have hm := Entries.ofItems?_eq_error_iff.2 h
    simp only [run, complete, if_pos, close, hm, Except.map]

theorem offends_of_leaf (h : Completes token) (hc : ∀ b, token ≠ .closing b) (hl : leaf token = .error fault)
    (stack : List Pending) : Offends stack token fault := by
  cases token with
  | comment contents => exact absurd rfl (h.comment contents)
  | opening b => exact absurd rfl (h.opening b)
  | shorthand s => exact absurd rfl (h.shorthand s)
  | closing b => exact absurd rfl (hc b)
  | caret => cases hl; exact .caret stack
  | string contents =>
    simp only [leaf] at hl
    split at hl
    · cases hl
    · next hs => cases hl; exact .string stack (Text.Quoted.decode_eq_error_iff.1 hs)
  | plain chars =>
    obtain ⟨rfl, malformed⟩ := Value.ofPlain?_eq_error_iff.1 hl
    exact .plain stack malformed

theorem offends_of_close {b : Bracket} {items : List Value} (h : close b items.reverse = .error fault)
    (stack : List Pending) : Offends (.bracket b items :: stack) (.closing b) fault := by
  obtain ⟨rfl, cause, hm, rfl⟩ := close_eq_error h
  exact .map stack (Entries.ofItems?_eq_error_iff.1 hm)

/-- A token that completes nothing offends. -/
theorem offends_of_complete (h : Completes token) (hc : complete token stack = .error fault) :
    Offends stack token fault := by
  rcases complete_eq_error hc with ⟨b, items, rest, rfl, rfl, hv⟩ | ⟨b, rfl, hopen, rfl⟩ | ⟨hclosing, hl⟩
  · exact offends_of_close hv rest
  · exact .closing hopen
  · exact offends_of_leaf h hclosing hl stack

/-- Where the reader stops, the tokens that its stack was made of and the next ones begin with no form. -/
theorem refuses_of_run_opens (hc : uncommented tokens = tokens) (h : Opens ts stack)
    (hr : run tokens stack = .error fault) : Refuses (ts ++ tokens) fault := by
  have tail {t : Token} {ts : List Token} (h : uncommented (t :: ts) = t :: ts) : uncommented ts = ts := by
    simp only [uncommented, List.filter_eq_self, List.mem_cons, forall_eq_or_imp] at h ⊢
    exact h.2
  fun_induction run tokens stack generalizing ts with
  | case1 => cases hr; cases h; exact .nothing
  | case2 top stack =>
    cases hr
    rw [List.append_nil]
    exact .unfinished (begins_iff.2 h)
  | case3 contents rest stack ih =>
    have kept := List.filter_eq_self.1 hc (.comment contents) List.mem_cons_self
    cases kept
  | case4 b rest stack ih => simpa using ih (tail hc) (.bracket b h .nil) hr
  | case5 s rest stack ih => simpa using ih (tail hc) (.shorthand s h) hr
  | case6 token rest stack hcom hopen hshort fault' hcomp =>
    cases hr
    exact .offended (begins_iff.2 h) (offends_of_complete ⟨hcom, hopen, hshort⟩ hcomp) rest
  | case7 => cases hr
  | case8 token tail' stack _ _ _ w stack' hcomp stack'' hdel ih =>
    obtain ⟨qs, us, split, hq, hw⟩ := opens_complete h hcomp
    have delivered := opens_deliver hq hw
    rw [hdel, ← split] at delivered
    simpa using ih (tail hc) delivered hr

theorem run_of_refuses (h : Refuses tokens fault) : run tokens [] = .error fault := by
  cases h with
  | nothing => rfl
  | unfinished h => simpa [run] using run_begins h []
  | offended h ht rest => rw [run_begins h, run_offends ht]

/-- The reader stops in tokens without comments exactly if they begin with no form, and says why. -/
theorem run_eq_error_iff (hc : uncommented tokens = tokens) : run tokens [] = .error fault ↔ Refuses tokens fault :=
  ⟨fun h => by simpa using refuses_of_run_opens hc .nil h, run_of_refuses⟩

/-- The reader takes from tokens without comments exactly the form that they begin with. -/
theorem run_eq_ok_iff (hc : uncommented tokens = tokens) :
    run tokens [] = .ok (v, rest) ↔ ∃ us, tokens = us ++ rest ∧ Derives us v := by
  constructor
  · intro h
    obtain ⟨us, split, form⟩ := form_of_run hc h
    exact ⟨us, split, derives_iff.2 form⟩
  · rintro ⟨us, rfl, h⟩
    rw [run_form (derives_iff.1 h)]
    rfl

/-- A form ends where it ends: tokens begin with no other form, and with none that is longer. -/
theorem derives_unique {us' rest' : List Token} {v' : Value} (h : Derives us v) (h' : Derives us' v')
    (he : us ++ rest = us' ++ rest') : us = us' ∧ v = v' := by
  have left : run (us ++ rest) [] = .ok (v, rest) := run_form (derives_iff.1 h) rest []
  have right : run (us' ++ rest') [] = .ok (v', rest') := run_form (derives_iff.1 h') rest' []
  rw [he, right] at left
  cases left
  exact ⟨List.append_cancel_right he, rfl⟩

theorem Offends.ne_unbalanced {what : Unfinished} (h : Offends stack token fault) : fault ≠ .unbalanced what := by
  cases h <;> simp

/-- The token that offends is one, and so is its fault. -/
theorem offended_unique {ts' rest' : List Token} {token' : Token} {fault' : ReadError} (h : Begins ts stack)
    (ht : Offends stack token fault) (h' : Begins ts' stack') (ht' : Offends stack' token' fault')
    (he : ts ++ token :: rest = ts' ++ token' :: rest') : ts = ts' ∧ token = token' ∧ fault = fault' := by
  -- tokens that are fine so far hold no token that offends
  have fine {ts ts' q : List Token} {stack stack' : List Pending} {token : Token} {fault : ReadError}
      (h : Begins ts stack) (ht : Offends stack token fault) (h' : Begins ts' stack') (hq : ts' = ts ++ token :: q) :
      False := by
    have stopped : run (ts' ++ []) [] = .error fault := by
      rw [hq, List.append_assoc, run_begins h, List.cons_append, run_offends ht]
    rw [run_begins h'] at stopped
    cases stack' with
    | nil => cases h'; simp at hq
    | cons top stack' => cases stopped; exact Offends.ne_unbalanced ht rfl
  have same : ts = ts' := by
    rcases List.append_eq_append_iff.1 he with ⟨q, hts', hq⟩ | ⟨q, hts, hq⟩
    · cases q with
      | nil => simpa using hts'.symm
      | cons t q => cases hq; exact (fine h ht h' hts').elim
    · cases q with
      | nil => simpa using hts
      | cons t q => cases hq; exact (fine h' ht' h hts).elim
  subst same
  obtain ⟨rfl, -⟩ := List.cons.inj (List.append_cancel_left he)
  have stopped := run_of_refuses (.offended h ht [])
  rw [run_of_refuses (.offended h' ht' [])] at stopped
  cases stopped
  exact ⟨rfl, rfl, rfl⟩

end Reader

/-! ## Texts -/

open Token (uncommented)

/-- A text whose string literals end is refused where its tokens, comments left out, begin with no form. -/
theorem read?_eq_error_iff {s : List Char} {ts : List Token} {fault : ReadError} (hs : Token.scan? s = some ts) :
    Value.read? s = .error fault ↔ Refuses (uncommented ts) fault := by
  rw [← Reader.run_eq_error_iff (Token.uncommented_uncommented ts), read?_eq_of_scan? hs]
  cases Reader.run (uncommented ts) [] <;> simp [Except.map]

/-- The reader accepts exactly the texts whose tokens, comments left out, begin with a form, which they do in one way
only, and takes no more of them than that form. What it refuses has a string literal without an end or begins with no
form for the one reason that it gives. -/
theorem reader_accepts_exactly_its_grammar :
    (∀ s v, Value.read? s = .ok v ↔
      ∃ ts us rest, Token.scan? s = some ts ∧ uncommented ts = us ++ rest ∧ Derives us v) ∧
    (∀ us us' rest rest' v v', Derives us v → Derives us' v' → us ++ rest = us' ++ rest' → us = us' ∧ v = v') ∧
    (∀ ts v rest, Reader.run (uncommented ts) [] = .ok (v, rest) ↔
      ∃ us, uncommented ts = us ++ rest ∧ Derives us v) ∧
    (∀ s fault, Value.read? s = .error fault ↔
      (Token.scan? s = none ∧ fault = .unbalanced .string) ∨
      ∃ ts, Token.scan? s = some ts ∧ Refuses (uncommented ts) fault) ∧
    (∀ ts ts' rest rest' stack stack' t t' fault fault', Begins ts stack → Offends stack t fault →
      Begins ts' stack' → Offends stack' t' fault' → ts ++ t :: rest = ts' ++ t' :: rest' →
      ts = ts' ∧ t = t' ∧ fault = fault') := by
  refine ⟨fun s v => ⟨fun h => ?_, fun ⟨ts, us, rest, hs, hu, h⟩ => ?_⟩, fun us us' rest rest' v v' h h' he => ?_,
    fun ts v rest => ?_, fun s fault => ?_, fun ts ts' rest rest' stack stack' t t' fault fault' h ht h' ht' he => ?_⟩
  · obtain ⟨ts, us, rest, hs, hu, form⟩ := form_of_read? h
    exact ⟨ts, us, rest, hs, hu, derives_iff.2 form⟩
  · exact read?_of_uncommented hs rest hu (derives_iff.1 h)
  · exact Reader.derives_unique h h' he
  · exact Reader.run_eq_ok_iff (Token.uncommented_uncommented ts)
  · cases hs : Token.scan? s with
    | none => simp [Value.read?, hs, eq_comm]
    | some ts => simp [read?_eq_error_iff hs]
  · exact Reader.offended_unique h ht h' ht' he

end MiniLisp

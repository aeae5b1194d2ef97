import Mathlib
import MiniLisp.Proofs.Parsing
import MiniLisp.Proofs.Splice

/-!
# Reading a program

The text of a program stands between an opening bracket and a line of its own with a nil and the closing bracket, and
only the form that starts with that opening bracket is read. So if the text spells forms, they are all read
(`read?_program`). If it does not, there is mostly nothing to be read; but a closing bracket too many ends the form
early, with the rest of the text left out, and marks at the end of the text take the nil along (`read?_program_iff`).

* `ClosedEarly`: a text with a closing bracket too many.
* `Dangles`: a text with marks at its end.
-/

namespace MiniLisp

open Token (uncommented inProgram)

/-- The form `(do …)`. -/
def doForm (fs : List Value) : Value := .list (.symbol "do" :: fs)

/-- The form that marks in a row make of a form. -/
def markedForm (marks : List Shorthand) (v : Value) : Value := marks.foldr (fun s v => .list [.symbol s.name, v]) v

/-- A text that spells forms up to a closing bracket that none of them opens. -/
def ClosedEarly (s : List Char) (fs : List Value) : Prop :=
  ∃ ts us vs, Token.scan? s = some ts ∧ uncommented ts = us ++ .closing .round :: vs ∧ Forms us fs

/-- A text that spells forms up to marks which no form follows. -/
def Dangles (s : List Char) (fs : List Value) (marks : List Shorthand) : Prop :=
  ∃ ts us, Token.scan? s = some ts ∧ uncommented ts = us ++ marks.map .shorthand ∧ Forms us fs

variable {s : List Char} {ts us : List Token} {v : Value} {vs : List Value}

theorem dangles_nil : Dangles s vs [] ↔ FormsOf s vs := by
  constructor
  · rintro ⟨ts, us, hs, hu, hf⟩
    rw [List.map_nil, List.append_nil] at hu
    exact ⟨ts, hs, hu ▸ hf⟩
  · rintro ⟨ts, hs, hf⟩
    exact ⟨ts, uncommented ts, hs, by simp, hf⟩

/-! ## How tokens spell forms -/

theorem form_ne_nil (h : Form ts v) : ts ≠ [] := by
  rintro rfl
  cases h

theorem eq_nil_of_forms (h : Forms ts []) : ts = [] := by
  cases h
  rfl

theorem forms_cons_iff : Forms ts (v :: vs) ↔ ∃ us ws, ts = us ++ ws ∧ Form us v ∧ Forms ws vs := by
  constructor
  · intro h
    cases h with
    | cons hv hs => exact ⟨_, _, rfl, hv, hs⟩
  · rintro ⟨us, ws, rfl, hv, hs⟩
    exact .cons hv hs

theorem eq_nil_of_forms_nil (h : Forms [] vs) : vs = [] := by
  cases vs with
  | nil => rfl
  | cons w vs =>
    obtain ⟨us, ws, none, hw, -⟩ := forms_cons_iff.1 h
    exact absurd (List.append_eq_nil_iff.1 none.symm).1 (form_ne_nil hw)

theorem form_plain {chars : List Char} (h : Form (.plain chars :: ts) v) : ts = [] ∧ Value.ofPlain? chars = .ok v := by
  cases h with
  | plain hv => exact ⟨rfl, hv⟩

theorem form_opening {b : Bracket} (h : Form (.opening b :: ts) v) :
    ∃ us vs, ts = us ++ [.closing b] ∧ Forms us vs ∧ Reader.close b vs = .ok v := by
  cases h with
  | bracket b h hv => exact ⟨_, _, rfl, h, hv⟩

/-- Tokens that begin with a plain run spell what the run stands for, and then what the others spell. -/
theorem forms_plain {chars : List Char} {w : Value} (hw : Value.ofPlain? chars = .ok w)
    (h : Forms (.plain chars :: ts) vs) : ∃ ws, vs = w :: ws ∧ Forms ts ws := by
  cases vs with
  | nil => cases eq_nil_of_forms h
  | cons v vs =>
    obtain ⟨us, ws, split, hv, hs⟩ := forms_cons_iff.1 h
    cases us with
    | nil => exact absurd rfl (form_ne_nil hv)
    | cons u us =>
      obtain ⟨rfl, rfl⟩ := List.cons.inj split
      obtain ⟨rfl, plain⟩ := form_plain hv
      cases hw.symm.trans plain
      exact ⟨vs, rfl, hs⟩

theorem form_marks (marks : List Shorthand) (h : Form ts v) :
    Form (marks.map .shorthand ++ ts) (markedForm marks v) := by
  induction marks with
  | nil => exact h
  | cons s marks ih => exact .shorthand s ih

/-- A form that ends in a plain run is that run with marks in front. -/
theorem marks_of_form {chars : List Char} {w : Value} (hw : Value.ofPlain? chars = .ok w)
    (h : Form (us ++ [.plain chars]) v) :
    ∃ marks : List Shorthand, us = marks.map .shorthand ∧ v = markedForm marks w := by
  induction us generalizing v with
  | nil =>
    obtain ⟨-, hv⟩ := form_plain h
    cases hw.symm.trans hv
    exact ⟨[], rfl, rfl⟩
  | cons u us ih =>
    generalize split : u :: us ++ [.plain chars] = ts at h
    rw [List.cons_append] at split
    cases h with
    | string _ => simp at split
    | plain _ => simp at split
    | shorthand s h =>
      obtain ⟨rfl, rfl⟩ := List.cons.inj split
      obtain ⟨marks, rfl, rfl⟩ := ih h
      exact ⟨s :: marks, rfl, rfl⟩
    | bracket b h hv =>
      -- a bracket ends in a closing bracket
      have last := congrArg List.getLast? (List.cons.inj split).2
      simp at last

/-- Forms that end in a plain run are forms, then marks, and then the run. -/
theorem marks_of_forms {chars : List Char} {w : Value} (hw : Value.ofPlain? chars = .ok w)
    (h : Forms (us ++ [.plain chars]) vs) : ∃ (ts : List Token) (fs : List Value) (marks : List Shorthand),
      us = ts ++ marks.map .shorthand ∧ Forms ts fs ∧ vs = fs ++ [markedForm marks w] := by
  induction vs generalizing us with
  | nil =>
    have none := eq_nil_of_forms h
    simp at none
  | cons v vs ih =>
    obtain ⟨ts, ws, split, hv, hs⟩ := forms_cons_iff.1 h
    rcases List.eq_nil_or_concat' ws with rfl | ⟨ws, t, rfl⟩
    · rw [List.append_nil] at split
      obtain ⟨marks, rfl, rfl⟩ := marks_of_form hw (split ▸ hv)
      obtain rfl := eq_nil_of_forms_nil hs
      exact ⟨[], [], marks, rfl, .nil, rfl⟩
    · rw [← List.append_assoc] at split
      obtain ⟨rfl, last⟩ := List.append_inj' split rfl
      cases last
      obtain ⟨ts', fs, marks, rfl, hf, rfl⟩ := ih hs
      exact ⟨ts ++ ts', v :: fs, marks, by simp, .cons hv hf, rfl⟩

/-! ## Programs -/

variable {source : String}

theorem uncommented_inProgram (ts : List Token) : uncommented (inProgram ts) = inProgram (uncommented ts) := by
  simp [uncommented, inProgram, Token.isComment]

theorem ofPlain?_do : Value.ofPlain? ['d', 'o'] = .ok (.symbol "do") := by cbv

theorem ofPlain?_nil : Value.ofPlain? ['n', 'i', 'l'] = .ok .nil := by cbv

theorem scan?_program_of_some (hs : Token.scan? source.toList = some ts) :
    Token.scan? (Interpreter.program source).toList = some (inProgram ts) := by
  rw [Token.scan?_program, hs]
  rfl

/-- Marks at the end of a text stand before the nil of the program. -/
theorem read?_program_of_dangles {fs : List Value} {marks : List Shorthand} (h : Dangles source.toList fs marks) :
    Value.read? (Interpreter.program source).toList = .ok (doForm (fs ++ [markedForm marks .nil])) := by
  obtain ⟨ts, us, hs, hu, hf⟩ := h
  have elements := forms_append (forms_single (.plain ofPlain?_do))
    (forms_append hf (forms_single (form_marks marks (.plain ofPlain?_nil))))
  refine read?_of_uncommented (scan?_program_of_some hs) [] ?_ (.bracket .round elements rfl)
  rw [uncommented_inProgram, hu]
  simp [inProgram]

/-- **A text that spells forms** is read with all of them, and a nil after them. -/
theorem read?_program {fs : List Value} (h : FormsOf source.toList fs) :
    Value.read? (Interpreter.program source).toList = .ok (doForm (fs ++ [.nil])) :=
  read?_program_of_dangles (dangles_nil.2 h)

/-- What follows a closing bracket too many is not looked at. -/
theorem read?_program_of_closedEarly {fs : List Value} (h : ClosedEarly source.toList fs) :
    Value.read? (Interpreter.program source).toList = .ok (doForm fs) := by
  obtain ⟨ts, us, vs, hs, hu, hf⟩ := h
  have elements := forms_append (forms_single (.plain ofPlain?_do)) hf
  refine read?_of_uncommented (scan?_program_of_some hs) (vs ++ [.plain ['n', 'i', 'l'], .closing .round]) ?_
    (.bracket .round elements rfl)
  rw [uncommented_inProgram, hu]
  simp [inProgram]

/-- The text of a program reads in no other way. -/
theorem read?_program_iff : Value.read? (Interpreter.program source).toList = .ok v ↔
    (∃ fs marks, Dangles source.toList fs marks ∧ v = doForm (fs ++ [markedForm marks .nil])) ∨
      ∃ fs, ClosedEarly source.toList fs ∧ v = doForm fs := by
  constructor
  · intro h
    obtain ⟨ts, us, rest, hs, hu, form⟩ := form_of_read? h
    rw [Token.scan?_program] at hs
    obtain ⟨ts, scanned, rfl⟩ := Option.map_eq_some_iff.1 hs
    rw [uncommented_inProgram, inProgram] at hu
    cases us with
    | nil => exact absurd rfl (form_ne_nil form)
    | cons u us =>
      obtain ⟨rfl, inside⟩ := List.cons.inj hu
      obtain ⟨us, vs, rfl, forms, closed⟩ := form_opening form
      cases closed
      replace inside := inside.trans (List.append_assoc us [.closing .round] rest)
      cases us with
      | nil => cases inside
      | cons u us =>
        obtain ⟨rfl, elements⟩ := List.cons.inj inside
        obtain ⟨fs, rfl, operands⟩ := forms_plain ofPlain?_do forms
        -- where the bracket closes: in the text, or at the end
        rcases List.append_eq_append_iff.1 elements with ⟨as, rfl, split⟩ | ⟨as, split, cut⟩
        · cases as with
          | nil => cases split
          | cons a as =>
            obtain ⟨rfl, split⟩ := List.cons.inj split
            cases as with
            | cons b as => simp at split
            | nil =>
              obtain ⟨ws, fs, marks, split, hf, rfl⟩ := marks_of_forms ofPlain?_nil operands
              exact .inl ⟨fs, marks, ⟨ts, ws, scanned, split, hf⟩, rfl⟩
        · cases as with
          | nil => cases cut
          | cons a as =>
            obtain ⟨rfl, -⟩ := List.cons.inj cut
            exact .inr ⟨fs, ⟨ts, us, as, scanned, split, operands⟩, rfl⟩
  · rintro (⟨fs, marks, h, rfl⟩ | ⟨fs, h, rfl⟩)
    · exact read?_program_of_dangles h
    · exact read?_program_of_closedEarly h

/-- There is always something to be read. -/
theorem read?_program_ne_nothingToRead (source : String) :
    Value.read? (Interpreter.program source).toList ≠ .error .nothingToRead := by
  unfold Value.read?
  rw [Token.scan?_program]
  cases Token.scan? source.toList with
  | none => simp
  | some ts =>
    intro h
    have none : Reader.run (inProgram ts) [] = .error .nothingToRead := by
      cases hr : Reader.run (inProgram ts) [] with
      | error fault =>
        simp only [Option.map_some, hr] at h
        cases h
        rfl
      | ok p =>
        simp only [Option.map_some, hr] at h
        cases h
    have opened : [Pending.bracket .round []] ≠ [] := by simp
    exact Reader.ne_nothingToRead_of_run opened none

end MiniLisp

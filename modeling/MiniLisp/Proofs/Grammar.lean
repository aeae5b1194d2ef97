import MiniLisp.Reader

/-!
# The grammar of forms

Which tokens, comments left out, spell which form (`Form`), and which spell several forms in a row (`Forms`). The
reader completes the form that tokens spell and hands it to what is open around it (`run_form`); the elements of a
bracket gather on its stack (`run_forms`).
-/

namespace MiniLisp

mutual

/-- The form that tokens spell. -/
inductive Form : List Token → Value → Prop
  | string {contents s : List Char} (h : Text.Quoted.decode contents = .ok s) :
      Form [.string contents] (.text (String.ofList s))
  | plain {chars : List Char} {v : Value} (h : Value.ofPlain? chars = .ok v) : Form [.plain chars] v
  | shorthand (s : Shorthand) {ts : List Token} {v : Value} (h : Form ts v) :
      Form (.shorthand s :: ts) (.list [.symbol s.name, v])
  | bracket (b : Bracket) {ts : List Token} {vs : List Value} {v : Value} (h : Forms ts vs)
      (hv : Reader.close b vs = .ok v) : Form (.opening b :: (ts ++ [.closing b])) v

/-- The forms that tokens spell, one after another. -/
inductive Forms : List Token → List Value → Prop
  | nil : Forms [] []
  | cons {ts us : List Token} {v : Value} {vs : List Value} (h : Form ts v) (hs : Forms us vs) :
      Forms (ts ++ us) (v :: vs)

end

/-- Sequences of forms may be put one after the other. -/
theorem forms_append {ts us : List Token} {vs ws : List Value} (h : Forms ts vs) (h' : Forms us ws) :
    Forms (ts ++ us) (vs ++ ws) := by
  cases h with
  | nil => exact h'
  | cons hv hs =>
    rw [List.append_assoc]
    exact .cons hv (forms_append hs h')

theorem forms_single {ts : List Token} {v : Value} (h : Form ts v) : Forms ts [v] := by
  simpa using Forms.cons h .nil

/-- A sequence of one form is that form. -/
theorem form_of_forms_single {ts : List Token} {v : Value} (h : Forms ts [v]) : Form ts v := by
  cases h with
  | cons hv hs =>
    cases hs
    simpa using hv

namespace Reader

/-- How the reader goes on with a complete form. -/
def resume (v : Value) (rest : List Token) (stack : List Pending) : Except ReadError (Value × List Token) :=
  match deliver v stack with
  | .inl v => .ok (v, rest)
  | .inr stack => run rest stack

/-- A string literal that decodes is read as its text. -/
theorem run_string {contents s : List Char} (h : Text.Quoted.decode contents = .ok s) (rest : List Token)
    (stack : List Pending) : run (.string contents :: rest) stack = resume (.text (String.ofList s)) rest stack := by
  simp only [run, complete, leaf, h, Except.map]
  rfl

/-- A plain token is read as its value. -/
theorem run_plain {chars : List Char} {v : Value} (h : Value.ofPlain? chars = .ok v) (rest : List Token)
    (stack : List Pending) : run (.plain chars :: rest) stack = resume v rest stack := by
  simp only [run, complete, leaf, h, Except.map]
  rfl

/-- A closer completes the bracket that was opened last. -/
theorem run_closing {b : Bracket} {vs : List Value} {v : Value} (h : close b vs = .ok v) (rest : List Token)
    (stack : List Pending) :
    run (.closing b :: rest) (.bracket b vs.reverse :: stack) = resume v rest stack := by
  simp only [run, complete, if_pos, List.reverse_reverse, h, Except.map]
  rfl

mutual

theorem run_form {ts : List Token} {v : Value} (h : Form ts v) (rest : List Token) (stack : List Pending) :
    run (ts ++ rest) stack = resume v rest stack := by
  match h with
  | .string hs => exact run_string hs rest stack
  | .plain hv => exact run_plain hv rest stack
  | .shorthand s h =>
    simp only [List.cons_append, run]
    rw [run_form h rest (.shorthand s :: stack)]
    rfl
  | .bracket b h hv =>
    simp only [List.cons_append, List.append_assoc, List.nil_append, run]
    rw [run_forms h (.closing b :: rest) b [] stack, List.append_nil]
    exact run_closing hv rest stack

theorem run_forms {ts : List Token} {vs : List Value} (h : Forms ts vs) (rest : List Token) (b : Bracket)
    (items : List Value) (stack : List Pending) :
    run (ts ++ rest) (.bracket b items :: stack) = run rest (.bracket b (vs.reverse ++ items) :: stack) := by
  match h with
  | .nil => rfl
  | @Forms.cons _ us v _ h hs =>
    rw [List.append_assoc, run_form h (us ++ rest) (.bracket b items :: stack)]
    have hnext := run_forms hs rest b (v :: items) stack
    simpa [resume, deliver] using hnext

end

end Reader

namespace Value

/-- A text whose tokens spell a form reads as that form. -/
theorem read?_of_form {s : List Char} {ts : List Token} {v : Value} (hs : Token.scan? s = some ts) (h : Form ts v) :
    read? s = .ok v := by
  have hrun := Reader.run_form h [] []
  rw [List.append_nil] at hrun
  simp only [read?, hs, hrun, Reader.resume, Reader.deliver, Except.map]

end Value

end MiniLisp

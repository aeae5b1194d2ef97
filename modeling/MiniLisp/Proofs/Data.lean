import Mathlib
import MiniLisp.Proofs.Literals
import MiniLisp.Proofs.Parsing
import MiniLisp.Value.Print

/-!
# Data

Values that hold nothing with an identity or a place in the machine. Their text depends on no machine and always ends
(`render_of_isData`), and the reader makes no others (`isData_of_read?`).
-/

namespace MiniLisp

namespace Value

/-- A value in which there is no builtin, no closure and no atom. -/
inductive IsData : Value → Prop
  | nil : IsData .nil
  | bool (b : Bool) : IsData (.bool b)
  | int (n : Int64) : IsData (.int n)
  | float (x : Float) : IsData (.float x)
  | text (s : String) : IsData (.text s)
  | symbol (name : String) : IsData (.symbol name)
  | keyword (name : String) : IsData (.keyword name)
  | list {xs : List Value} (h : ∀ x ∈ xs, IsData x) : IsData (.list xs)
  | vector {xs : List Value} (h : ∀ x ∈ xs, IsData x) : IsData (.vector xs)
  | map {es : Entries} (h : ∀ e ∈ es, IsData e.2) : IsData (.map es)

/-! ## Texts of data -/

section

variable {contents : AtomId → Option (List Char)} {mode : Mode}

/-- Items print when each of them does. -/
theorem renderItems_of_isSome {xs : List Value} (h : ∀ x ∈ xs, (render mode contents x).isSome = true) :
    (renderItems mode contents xs).isSome = true := by
  induction xs with
  | nil => rfl
  | cons x xs ih =>
    obtain ⟨t, ht⟩ := Option.isSome_iff_exists.1 (h x List.mem_cons_self)
    obtain ⟨ts, hts⟩ := Option.isSome_iff_exists.1 (ih fun y hy => h y (List.mem_cons_of_mem _ hy))
    rw [renderItems, ht, hts]
    rfl

theorem renderEntries_of_isSome {es : Entries} (h : ∀ e ∈ es, (render mode contents e.2).isSome = true) :
    (renderEntries mode contents es).isSome = true := by
  induction es with
  | nil => rfl
  | cons e es ih =>
    obtain ⟨k, x⟩ := e
    obtain ⟨t, ht⟩ := Option.isSome_iff_exists.1 (h (k, x) List.mem_cons_self)
    obtain ⟨ts, hts⟩ := Option.isSome_iff_exists.1 (ih fun y hy => h y (List.mem_cons_of_mem _ hy))
    rw [renderEntries, ht, hts]
    rfl

/-- The text of data ends whatever atoms hold. -/
theorem render_of_isData {v : Value} (h : v.IsData) (mode : Mode) (contents : AtomId → Option (List Char)) :
    (v.render mode contents).isSome = true := by
  induction h with
  | list _ ih | vector _ ih =>
    rw [render, Option.isSome_map]
    exact renderItems_of_isSome ih
  | map _ ih =>
    rw [render, Option.isSome_map]
    exact renderEntries_of_isSome ih
  | _ => rfl

end

/-! ## What is read is data -/

/-- Literals are data. -/
theorem isData_of_literal {chars : List Char} {v : Value} (h : Literal chars v) : v.IsData := by
  cases h with
  | number _ hv =>
    rcases Numeral.value?_eq_some hv with ⟨i, rfl⟩ | ⟨x, rfl⟩
    · exact .int i
    · exact .float x
  | nil => exact .nil
  | true => exact .bool true
  | false => exact .bool false
  | keyword name => exact .keyword _
  | symbol => exact .symbol _

/-- A completed bracket of data is data. -/
theorem isData_of_close {b : Bracket} {items : List Value} {v : Value} (h : Reader.close b items = .ok v)
    (hi : ∀ x ∈ items, x.IsData) : v.IsData := by
  rcases Reader.close_eq_ok h with ⟨-, rfl⟩ | ⟨-, rfl⟩ | ⟨es, -, hes, rfl⟩
  · exact .list hi
  · exact .vector hi
  · exact .map fun e he => hi _ ((Entries.of_ofItems? hes).2 e he).2

end Value

open Value (IsData)

mutual

/-- Every form of the grammar is data, by induction on how it is read. -/
theorem isData_of_form {ts : List Token} {v : Value} (h : Form ts v) : v.IsData := by
  match h with
  | .string _ => exact .text _
  | .plain hv => exact Value.isData_of_literal (Value.ofPlain?_eq_ok_iff.1 hv)
  | .shorthand s h =>
    have operand := isData_of_form h
    refine .list fun x hx => ?_
    simp only [List.mem_cons, List.not_mem_nil, or_false] at hx
    rcases hx with rfl | rfl
    · exact .symbol s.name
    · exact operand
  | .bracket b h hv => exact Value.isData_of_close hv (isData_of_forms h)

theorem isData_of_forms {ts : List Token} {vs : List Value} (h : Forms ts vs) : ∀ v ∈ vs, v.IsData := by
  match h with
  | .nil => simp
  | .cons hv hs =>
    have first := isData_of_form hv
    have others := isData_of_forms hs
    simp only [List.mem_cons, forall_eq_or_imp]
    exact ⟨first, others⟩

end

namespace Value

/-- Whatever text is read, the value read is data: it holds no closure, no atom and no builtin. -/
theorem isData_of_read? {s : List Char} {v : Value} (h : read? s = .ok v) : v.IsData := by
  obtain ⟨_, _, _, _, _, form⟩ := form_of_read? h
  exact isData_of_form form

end Value

end MiniLisp

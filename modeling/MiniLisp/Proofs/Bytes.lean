import Mathlib

/-!
# The bytes of a text

A text is cut and looked into by its bytes, in UTF-8. What is asked about ASCII characters can be asked of bytes, since
their bytes are in no other character: whether a text begins or ends with one, and how often it stands at the end
(`Text.head?_bytes`, `Text.getLast?_bytes`, `Text.takeWhile_bytes`). Where whole texts end, cutting gives these texts
(`Text.slice_append`).
-/

namespace MiniLisp.Text

/-- The bytes of a text, in UTF-8. -/
def bytes (s : List Char) : List UInt8 := s.flatMap String.utf8EncodeChar

/-- The byte of an ASCII character. -/
def byte (c : Char) : UInt8 := UInt8.ofNat c.toNat

/-- The text cut at a byte, if no character is cut by that. -/
def cut : Nat → List Char → Option (List Char × List Char)
  | 0, s => some ([], s)
  | _ + 1, [] => none
  | n + 1, c :: r =>
    if c.utf8Size ≤ n + 1 then (cut (n + 1 - c.utf8Size) r).map fun p => (c :: p.1, p.2) else none

/-- What stands in a text between two bytes, if there is such a text. -/
def slice (i j : Nat) (s : List Char) : Option (List Char) :=
  (cut j s).bind fun p => (cut i p.1).map Prod.snd

variable {c d : Char} {b : UInt8} {s t : List Char}

theorem encode_ascii (h : c.toNat ≤ 127) : String.utf8EncodeChar c = [byte c] := by
  unfold String.utf8EncodeChar
  exact if_pos h

theorem le_of_mem_encode (h : 127 < c.toNat) (hb : b ∈ String.utf8EncodeChar c) : 128 ≤ b.toNat := by
  have hv : ¬ c.val.toNat ≤ 127 := Nat.not_le.2 h
  simp only [String.utf8EncodeChar, hv, if_false] at hb
  split at hb
  · simp only [List.mem_cons, List.not_mem_nil, or_false] at hb
    rcases hb with rfl | rfl <;> rw [UInt8.toNat_ofNat'] <;> omega
  split at hb
  · simp only [List.mem_cons, List.not_mem_nil, or_false] at hb
    rcases hb with rfl | rfl | rfl <;> rw [UInt8.toNat_ofNat'] <;> omega
  · simp only [List.mem_cons, List.not_mem_nil, or_false] at hb
    rcases hb with rfl | rfl | rfl | rfl <;> rw [UInt8.toNat_ofNat'] <;> omega

theorem toNat_byte (h : c.toNat ≤ 127) : (byte c).toNat = c.toNat := by
  rw [byte, UInt8.toNat_ofNat']
  omega

/-- The byte of an ASCII character is in the bytes of no other character. -/
theorem eq_of_mem_encode (hd : d.toNat ≤ 127) (h : byte d ∈ String.utf8EncodeChar c) : c = d := by
  by_cases hc : c.toNat ≤ 127
  · rw [encode_ascii hc, List.mem_singleton] at h
    have same := congrArg UInt8.toNat h
    rw [toNat_byte hd, toNat_byte hc] at same
    exact Char.toNat_inj.1 same.symm
  · have high := le_of_mem_encode (Nat.not_le.1 hc) h
    rw [toNat_byte hd] at high
    omega

theorem bytes_append (s t : List Char) : bytes (s ++ t) = bytes s ++ bytes t := List.flatMap_append

theorem bytes_cons (c : Char) (s : List Char) : bytes (c :: s) = String.utf8EncodeChar c ++ bytes s := rfl

/-- The first byte of a text is that of its first character, unless neither is ASCII. -/
theorem head?_bytes (c : Char) (s : List Char) :
    ∃ b, (bytes (c :: s)).head? = some b ∧
      (Char.ofNat b.toNat = c ∨ 127 < (Char.ofNat b.toNat).toNat ∧ 127 < c.toNat) := by
  rw [bytes_cons]
  by_cases hc : c.toNat ≤ 127
  · refine ⟨byte c, by rw [encode_ascii hc]; rfl, .inl ?_⟩
    rw [toNat_byte hc, Char.ofNat_toNat]
  · obtain ⟨b, bs, he⟩ := List.exists_cons_of_ne_nil (String.utf8EncodeChar_ne_nil (c := c))
    have high : 128 ≤ b.toNat := le_of_mem_encode (Nat.not_le.1 hc) (by rw [he]; exact List.mem_cons_self)
    have small := b.toNat_lt
    have valid : b.toNat.isValidChar := .inl (by omega)
    refine ⟨b, by rw [he]; rfl, .inr ⟨?_, Nat.not_le.1 hc⟩⟩
    rw [Char.toNat_ofNat, if_pos valid]
    exact high

/-- The last byte of a text is that of an ASCII character exactly if the character is the last of the text. -/
theorem getLast?_bytes (hd : d.toNat ≤ 127) : (bytes s).getLast? = some (byte d) ↔ s.getLast? = some d := by
  rcases List.eq_nil_or_concat' s with rfl | ⟨s, c, rfl⟩
  · simp [bytes]
  · have last : (bytes (s ++ [c])).getLast? = (String.utf8EncodeChar c).getLast? := by
      rw [bytes_append, List.getLast?_append_of_ne_nil]
      · simp [bytes]
      · simp [bytes, String.utf8EncodeChar_ne_nil]
    rw [last, List.getLast?_concat, Option.some_inj]
    refine ⟨fun h => eq_of_mem_encode hd (List.mem_of_getLast? h), ?_⟩
    rintro rfl
    rw [encode_ascii hd]
    rfl

/-- How often an ASCII character stands at the end of a text, counted by its byte. -/
theorem takeWhile_bytes (hd : d.toNat ≤ 127) (s : List Char) :
    ((bytes s).reverse.takeWhile (· == byte d)).length = (s.reverse.takeWhile (· == d)).length := by
  induction s using List.reverseRecOn with
  | nil => rfl
  | append_singleton s c ih =>
    rw [bytes_append, List.reverse_append, List.reverse_append]
    by_cases hc : c = d
    · subst hc
      simp [bytes, encode_ascii hd] at ih ⊢
      exact ih
    · have some : (bytes [c]).reverse ≠ [] := by simp [bytes, String.utf8EncodeChar_ne_nil]
      obtain ⟨b, bs, he⟩ := List.exists_cons_of_ne_nil some
      have other : b ≠ byte d := by
        rintro rfl
        have mem : byte d ∈ (bytes [c]).reverse := he ▸ List.mem_cons_self
        exact hc (eq_of_mem_encode hd (by simpa [bytes] using mem))
      rw [he]
      simp [hc, other]

theorem cut_append (s t : List Char) : cut (bytes s).length (s ++ t) = some (s, t) := by
  induction s with
  | nil => simp [bytes, cut]
  | cons c s ih =>
    have positive := c.utf8Size_pos
    have size : (bytes (c :: s)).length = (c.utf8Size - 1 + (bytes s).length) + 1 := by
      rw [bytes_cons, List.length_append, String.length_utf8EncodeChar]
      omega
    have left : c.utf8Size - 1 + (bytes s).length + 1 - c.utf8Size = (bytes s).length := by omega
    have whole : c.utf8Size ≤ c.utf8Size - 1 + (bytes s).length + 1 := by omega
    rw [size, List.cons_append, cut, left, ih, if_pos whole]
    rfl

/-- A text between others is what stands between their bytes. -/
theorem slice_append (s t u : List Char) :
    slice (bytes s).length (bytes (s ++ t)).length (s ++ t ++ u) = some t := by
  rw [slice, cut_append, Option.bind_some, cut_append]
  rfl

end MiniLisp.Text

/-!
# The order of texts

Texts are ordered as in a dictionary, by the codes of their characters.

* `before_irrefl`, `before_trans`, `before_or`: the order is strict and total.
-/

namespace MiniLisp.Text

/-- Whether a text stands before another one. -/
def before : List Char → List Char → Bool
  | _, [] => false
  | [], _ :: _ => true
  | c :: r, d :: s => if c = d then before r s else c.toNat < d.toNat

theorem before_nil (s : List Char) : before s [] = false := by cases s <;> rfl

theorem before_irrefl : ∀ s : List Char, before s s = false
  | [] => rfl
  | c :: s => by simp [before, before_irrefl s]

/-- The order of texts is transitive, by their first difference. -/
theorem before_trans : ∀ {r s t : List Char}, before r s = true → before s t = true → before r t = true
  | _, [], _, h, _ => by simp [before_nil] at h
  | _, _ :: _, [], _, h => by simp [before_nil] at h
  | [], _ :: _, _ :: _, _, _ => rfl
  | c :: r, d :: s, e :: t, h, h' => by
    by_cases hcd : c = d <;> by_cases hde : d = e
    · subst hcd hde
      simp only [before, if_pos] at h h' ⊢
      exact before_trans h h'
    · subst hcd
      simpa [before, hde] using h'
    · subst hde
      simpa [before, hcd] using h
    · simp only [before, hcd, hde, if_false, decide_eq_true_eq] at h h' ⊢
      have hne : c ≠ e := by rintro rfl; omega
      simp only [hne, if_false, decide_eq_true_eq]
      omega

/-- Of two texts one stands before the other. -/
theorem before_or : ∀ {s t : List Char}, s ≠ t → before s t = true ∨ before t s = true
  | [], [], h => absurd rfl h
  | [], _ :: _, _ => Or.inl rfl
  | _ :: _, [], _ => Or.inr rfl
  | c :: s, d :: t, h => by
    by_cases hcd : c = d
    · subst hcd
      simpa [before] using before_or fun hst => h (by rw [hst])
    · have hne : c.toNat ≠ d.toNat := fun he => hcd (Char.toNat_inj.1 he)
      simp only [before, hcd, Ne.symm hcd, if_false, decide_eq_true_eq]
      omega

end MiniLisp.Text

import MiniLisp.Value.Entries

/-!
# Entries in the order of their keys

The entries of a map stand in the order of their keys, each key once (`Entries.Ordered`), whatever order they are put
in: entries with distinct keys, put in one after another, give the one ordered arrangement of them
(`insertAll_eq_of_perm`). Values that spell entries in turn give the entries back (`ofItems?_items`).
-/

namespace MiniLisp

namespace Key

theorem before_irrefl (k : Key) : k.before k = false := by
  cases k <;> simp [before, Text.before_irrefl]

/-- Keywords before texts, and each kind by its order of texts. -/
theorem before_trans {k l n : Key} (h : k.before l = true) (h' : l.before n = true) : k.before n = true := by
  cases k <;> cases l <;> cases n <;> simp_all [before]
  · exact Text.before_trans h h'
  · exact Text.before_trans h h'

theorem before_asymm {k l : Key} (h : k.before l = true) : l.before k = false := by
  cases h' : l.before k with
  | false => rfl
  | true => rw [← before_irrefl k, before_trans h h']

/-- Of two keys one stands before the other. -/
theorem before_or {k l : Key} (h : k ≠ l) : k.before l = true ∨ l.before k = true := by
  have text {a b : String} (hab : a ≠ b) :
      Text.before a.toList b.toList = true ∨ Text.before b.toList a.toList = true :=
    Text.before_or fun he => hab (String.toList_inj.1 he)
  cases k <;> cases l <;> simp_all [before]

end Key

namespace Entries

/-- Entries in the order of their keys, each key once. -/
def Ordered (es : Entries) : Prop := es.Pairwise fun a b => a.1.before b.1 = true

theorem mem_of_find? {k : Key} {v : Value} {es : Entries} (h : es.find? k = some v) : (k, v) ∈ es := by
  induction es with
  | nil => cases h
  | cons e es ih =>
    obtain ⟨l, w⟩ := e
    unfold find? at h
    split at h
    · next hl =>
      cases h
      rw [hl]
      exact List.mem_cons_self
    · exact List.mem_cons_of_mem _ (ih h)

/-- An entry that is put in, or one that was there under another key. -/
theorem mem_insert {k : Key} {v : Value} {e : Key × Value} {es : Entries} (h : e ∈ es.insert k v) :
    e = (k, v) ∨ e ∈ es := by
  induction es with
  | nil => simpa [insert] using h
  | cons f es ih =>
    obtain ⟨l, w⟩ := f
    simp only [insert] at h
    split at h
    · rcases List.mem_cons.1 h with h | h
      · exact Or.inl h
      · exact Or.inr (List.mem_cons_of_mem _ h)
    split at h
    · exact List.mem_cons.1 h
    · rcases List.mem_cons.1 h with h | h
      · exact Or.inr (h ▸ List.mem_cons_self)
      · exact (ih h).imp id (List.mem_cons_of_mem _)

/-- An insertion keeps the entries in order. -/
theorem ordered_insert (k : Key) (v : Value) {es : Entries} (h : es.Ordered) : (es.insert k v).Ordered := by
  induction es with
  | nil => simp [insert, Ordered]
  | cons f es ih =>
    obtain ⟨l, w⟩ := f
    obtain ⟨hl, hes⟩ := List.pairwise_cons.1 h
    simp only [insert]
    split
    · next hk => subst hk; exact List.pairwise_cons.2 ⟨hl, hes⟩
    split
    · next hk =>
      refine List.pairwise_cons.2 ⟨fun e he => ?_, h⟩
      rcases List.mem_cons.1 he with rfl | he
      · exact hk
      · exact Key.before_trans hk (hl e he)
    · next hne hk =>
      refine List.pairwise_cons.2 ⟨fun e he => ?_, ih hes⟩
      rcases mem_insert he with rfl | he
      · exact (Key.before_or hne).resolve_right hk
      · exact hl e he

theorem ordered_insertAll (more : Entries) {es : Entries} (h : es.Ordered) : (es.insertAll more).Ordered := by
  induction more generalizing es with
  | nil => exact h
  | cons e more ih => exact ih (ordered_insert e.1 e.2 h)

/-- An entry there in the end was there or was put in. -/
theorem mem_insertAll {e : Key × Value} {more es : Entries} (h : e ∈ es.insertAll more) : e ∈ more ∨ e ∈ es := by
  induction more generalizing es with
  | nil => exact Or.inr h
  | cons f more ih =>
    rcases ih h with h | h
    · exact Or.inl (List.mem_cons_of_mem _ h)
    · rcases mem_insert h with rfl | h
      · exact Or.inl List.mem_cons_self
      · exact Or.inr h

/-- A new key adds its entry. -/
theorem insert_perm {k : Key} {v : Value} {es : Entries} (h : ∀ e ∈ es, e.1 ≠ k) :
    (es.insert k v).Perm ((k, v) :: es) := by
  induction es with
  | nil => exact List.Perm.refl _
  | cons f es ih =>
    obtain ⟨l, w⟩ := f
    have hl : l ≠ k := h (l, w) List.mem_cons_self
    simp only [insert, hl, if_false]
    split
    · exact List.Perm.refl _
    · have hes := ih fun e he => h e (List.mem_cons_of_mem _ he)
      exact (hes.cons _).trans (List.Perm.swap _ _ _)

/-- Entries with keys of their own are all kept. -/
theorem insertAll_perm {more es : Entries} (h : (more ++ es).Pairwise fun a b => a.1 ≠ b.1) :
    (es.insertAll more).Perm (more ++ es) := by
  induction more generalizing es with
  | nil => exact List.Perm.refl _
  | cons e more ih =>
    obtain ⟨he, hrest⟩ := List.pairwise_cons.1 h
    have hins : (es.insert e.1 e.2).Perm (e :: es) :=
      insert_perm fun f hf => Ne.symm (he f (List.mem_append_right _ hf))
    have hperm : (more ++ es.insert e.1 e.2).Perm (e :: (more ++ es)) :=
      (hins.append_left more).trans List.perm_middle
    exact (ih (hperm.symm.pairwise h fun hne => Ne.symm hne)).trans hperm

/-- There is only one order of the same entries. -/
theorem eq_of_perm {es fs : Entries} (he : es.Ordered) (hf : fs.Ordered) (h : es.Perm fs) : es = fs :=
  h.eq_of_pairwise (fun _ _ _ _ hab hba => by rw [Key.before_asymm hab] at hba; cases hba) he hf

theorem ne_of_ordered {es : Entries} (h : es.Ordered) : es.Pairwise fun a b => a.1 ≠ b.1 :=
  h.imp fun {a b} hab heq => by rw [heq, Key.before_irrefl] at hab; cases hab

/-- Whatever order ordered entries are put in, they come out in their own. -/
theorem insertAll_eq_of_perm {es fs : Entries} (h : es.Ordered) (hp : fs.Perm es) :
    Entries.insertAll [] fs = es := by
  have hne : fs.Pairwise fun a b => a.1 ≠ b.1 := hp.symm.pairwise (ne_of_ordered h) fun hne => Ne.symm hne
  have hnil : (fs ++ ([] : Entries)).Pairwise fun a b => a.1 ≠ b.1 := by simpa using hne
  have hall : (Entries.insertAll [] fs).Perm fs := by simpa using insertAll_perm hnil
  exact eq_of_perm (ordered_insertAll fs List.Pairwise.nil) h (hall.trans hp)

/-! ## Entries spelled by values in turn -/

/-- The values that spell entries in turn. -/
def items (es : Entries) : List Value := es.flatMap fun e => [e.1.toValue, e.2]

theorem pairs_items (es : Entries) : pairs es.items = .ok es := by
  induction es with
  | nil => rfl
  | cons e es ih =>
    obtain ⟨k, v⟩ := e
    simp only [items, List.flatMap_cons, List.cons_append, List.nil_append, pairs, Key.ofValue?_toValue] at ih ⊢
    rw [ih]
    rfl

theorem length_items (es : Entries) : es.items.length = 2 * es.length := by
  induction es with
  | nil => rfl
  | cons e es ih =>
    simp only [items, List.flatMap_cons, List.length_append, List.length_cons, List.length_nil] at ih ⊢
    omega

/-- The items of entries make a map of them. -/
theorem ofItems?_items (es : Entries) : ofItems? es.items = .ok (insertAll [] es) := by
  have hlen : es.items.length % 2 ≠ 1 := by rw [length_items]; omega
  simp [ofItems?, hlen, pairs_items, Except.map]

/-- Entries come from the values that spell them. -/
theorem mem_of_pairs {xs : List Value} {es : Entries} (h : pairs xs = .ok es) {e : Key × Value} (he : e ∈ es) :
    e.1.toValue ∈ xs ∧ e.2 ∈ xs := by
  fun_induction pairs xs generalizing es with
  | case1 => cases h; cases he
  | case2 => cases h
  | case3 => cases h
  | case4 k v rest k' hk ih =>
    cases hr : pairs rest with
    | error fault => rw [hr] at h; cases h
    | ok fs =>
      rw [hr] at h
      cases h
      rcases List.mem_cons.1 he with rfl | he
      · simp [Key.toValue_of_ofValue? hk]
      · obtain ⟨h₁, h₂⟩ := ih hr he
        exact ⟨by simp [h₁], by simp [h₂]⟩

/-- A map made of items is in order, and its keys and values are among them. -/
theorem of_ofItems? {xs : List Value} {es : Entries} (h : ofItems? xs = .ok es) :
    es.Ordered ∧ ∀ e ∈ es, e.1.toValue ∈ xs ∧ e.2 ∈ xs := by
  unfold ofItems? at h
  split at h
  · cases h
  · cases hp : pairs xs with
    | error fault => rw [hp] at h; cases h
    | ok fs =>
      rw [hp] at h
      cases h
      refine ⟨ordered_insertAll fs List.Pairwise.nil, fun e he => ?_⟩
      rcases mem_insertAll he with he | he
      · exact mem_of_pairs hp he
      · cases he

end Entries

end MiniLisp

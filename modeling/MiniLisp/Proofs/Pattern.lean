/-!
# Patterns

Regular expressions as they are matched at the beginning of a text by trying one way after another: of two
alternatives the first is tried first, and a repetition goes on for as long as it can. What a pattern matches is the
first way in which it matches (`Pattern.first?`).

* `Pattern.append_of_ways`: what is taken and what is left are the text.
* `Pattern.first?_seq`, `Pattern.first?_either`, `Pattern.first?_many_step`: a pattern whose parts match in their first
  way, and go on from there, does so itself; nothing is tried again.
-/

namespace MiniLisp

/-- A regular expression. -/
inductive Pattern
  /-- Nothing. -/
  | empty
  /-- A character of a class. -/
  | one (p : Char → Bool)
  | seq (a b : Pattern)
  | either (a b : Pattern)
  /-- Any number of times. -/
  | many (a : Pattern)

namespace Pattern

/-- The ways in which a pattern matches at the beginning of a text, in the order in which they are tried, each with
what it takes of the text and what it leaves. A repetition is not tried again once nothing is taken. -/
def ways : Pattern → List Char → List (List Char × List Char)
  | empty, s => [([], s)]
  | one _, [] => []
  | one p, c :: r => if p c then [([c], r)] else []
  | seq a b, s => (ways a s).flatMap fun w => (ways b w.2).map fun w' => (w.1 ++ w'.1, w'.2)
  | either a b, s => ways a s ++ ways b s
  | many a, s =>
    ((ways a s).flatMap fun w =>
      if w.2.length < s.length then (ways (many a) w.2).map fun w' => (w.1 ++ w'.1, w'.2) else []) ++ [([], s)]
termination_by p s => (sizeOf p, s.length)

/-- What a pattern matches. -/
def first? (a : Pattern) (s : List Char) : Option (List Char × List Char) := (ways a s).head?

/-- A text. -/
def literally (cs : List Char) : Pattern := cs.foldr (fun c a => seq (one (· == c)) a) empty

variable {a b : Pattern} {p : Char → Bool} {c : Char} {s t r t' r' : List Char} {w : List Char × List Char}

/-- Every way to match divides the text. -/
theorem append_of_ways (h : w ∈ ways a s) : w.1 ++ w.2 = s := by
  fun_induction ways a s generalizing w with
  | case1 s => simp_all
  | case2 p => cases h
  | case3 p c r hc => simp_all
  | case4 p c r hc => cases h
  | case5 a b s ihb iha =>
    obtain ⟨u, hu, hw⟩ := List.mem_flatMap.1 h
    obtain ⟨v, hv, rfl⟩ := List.mem_map.1 hw
    have left := iha hu
    rw [← ihb u hv] at left
    simpa using left
  | case6 a b s iha ihb =>
    rcases List.mem_append.1 h with h | h
    · exact iha h
    · exact ihb h
  | case7 a s ih iha =>
    rcases List.mem_append.1 h with h | h
    · obtain ⟨u, hu, hw⟩ := List.mem_flatMap.1 h
      split at hw
      · next shorter =>
        obtain ⟨v, hv, rfl⟩ := List.mem_map.1 hw
        have left := iha hu
        rw [← ih u shorter hv] at left
        simpa using left
      · cases hw
    · simp_all

/-- So does the way that is taken. -/
theorem append_of_first? (h : first? a s = some (t, r)) : t ++ r = s :=
  append_of_ways (List.mem_of_head? h)

/-! ## The first way -/

/-- Where the first element gives something, the first thing of all is the first thing that it gives. -/
theorem head?_flatMap {α β : Type} {xs : List α} {f : α → List β} {x : α} {y : β} (hx : xs.head? = some x)
    (hy : (f x).head? = some y) : (xs.flatMap f).head? = some y := by
  cases xs with
  | nil => cases hx
  | cons x' xs =>
    cases hx
    rw [List.flatMap_cons, List.head?_append, hy]
    rfl

theorem first?_empty (s : List Char) : first? empty s = some ([], s) := by simp [first?, ways]

theorem first?_one_nil : first? (one p) [] = none := by simp [first?, ways]

theorem first?_one (c : Char) (r : List Char) : first? (one p) (c :: r) = if p c then some ([c], r) else none := by
  cases hc : p c <;> simp [first?, ways, hc]

/-- In a sequence the first way of the first part is taken as long as the second part can follow it. -/
theorem first?_seq (ha : first? a s = some (t, r)) (hb : first? b r = some (t', r')) :
    first? (seq a b) s = some (t ++ t', r') := by
  rw [first?, ways]
  refine head?_flatMap ha ?_
  rw [List.head?_map]
  exact congrArg (Option.map _) hb

/-- After a single character there is no other way than to go on. -/
theorem first?_one_seq (c : Char) (r : List Char) :
    first? (seq (one p) b) (c :: r) = if p c then (first? b r).map fun w => (c :: w.1, w.2) else none := by
  cases hc : p c
  · simp [first?, ways, hc]
  · simp [first?, ways, hc, List.head?_map]

theorem first?_one_seq_nil : first? (seq (one p) b) [] = none := by simp [first?, ways]

/-- The first alternative goes before the second. -/
theorem first?_either (a b : Pattern) (s : List Char) : first? (either a b) s = (first? a s).or (first? b s) := by
  rw [first?, ways, List.head?_append]
  rfl

/-- A repetition takes another round whenever that takes something and the rest can be repeated. -/
theorem first?_many_step (h : first? a s = some (t, r)) (ht : t ≠ []) (hm : first? (many a) r = some (t', r')) :
    first? (many a) s = some (t ++ t', r') := by
  have shorter : r.length < s.length := by
    have taken := List.length_pos_iff.2 ht
    have whole := congrArg List.length (append_of_first? h)
    rw [List.length_append] at whole
    omega
  have again : (((ways a s).flatMap fun w =>
      if w.2.length < s.length then (ways (many a) w.2).map fun w' => (w.1 ++ w'.1, w'.2) else []).head?) =
        some (t ++ t', r') := by
    refine head?_flatMap h ?_
    rw [if_pos shorter, List.head?_map]
    exact congrArg (Option.map _) hm
  rw [first?, ways, List.head?_append, again]
  rfl

/-- A repetition that cannot go on matches the empty text. -/
theorem first?_many_stop (h : first? a s = none) : first? (many a) s = some ([], s) := by
  have none : ways a s = [] := List.head?_eq_none_iff.1 h
  rw [first?, ways, none]
  rfl

/-- A repetition of a class takes the longest run of it. -/
theorem first?_many_one (p : Char → Bool) (s : List Char) :
    first? (many (one p)) s = some (s.takeWhile p, s.dropWhile p) := by
  induction s with
  | nil => exact first?_many_stop first?_one_nil
  | cons c s ih =>
    cases hc : p c with
    | false => simpa [hc] using first?_many_stop (a := one p) (s := c :: s) (by simp [first?_one, hc])
    | true =>
      have one : first? (one p) (c :: s) = some ([c], s) := by simp [first?_one, hc]
      simpa [hc] using first?_many_step one (by simp) ih

end Pattern

end MiniLisp

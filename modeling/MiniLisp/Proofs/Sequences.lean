import Mathlib
import MiniLisp.Proofs.Settled

/-!
# The builtins on sequences

Nil, lists and vectors are read alike, as their elements in order (`Spans`). The builtins on sequences do to them what
the operations of lists do to the elements, so that the laws of lists hold of their calls.

* `Sequence.together`: the elements of all of some sequences, which is all that `concat` looks at.
* `Sequence.together_congr`: some arguments may stand for others with the same elements, whatever is before and after.
* `Sequence.nth_eq`: indices are from zero up to the number of elements.
* **Laws of lists** (`sequence_builtins_obey_the_laws_of_lists`).
-/

namespace MiniLisp

open Call (Yields)

/-- The elements of a value that is read as a sequence. -/
inductive Spans : Value → List Value → Prop
  | nil : Spans .nil []
  | list (xs : List Value) : Spans (.list xs) xs
  | vector (xs : List Value) : Spans (.vector xs) xs

/-- A list or a vector spans its items. -/
theorem Spans.of_items? {s : Value} {xs : List Value} (h : s.items? = some xs) : Spans s xs := by
  cases s <;> cases h
  · exact .list xs
  · exact .vector xs

namespace Sequence

variable {s : Value} {ss ts : List Value} {xs ys : List Value} {fault : EvalError}

/-- The sequence builtins take lists, vectors and `nil`, which spans nothing. -/
theorem elements_eq_ok_iff : elements s = .ok xs ↔ Spans s xs := by
  constructor
  · intro h
    cases s <;> cases h
    · exact .nil
    · exact .list xs
    · exact .vector xs
  · intro h
    cases h <;> rfl

/-- Whatever else they are given is refused by one fault. -/
theorem elements_eq_error_iff : elements s = .error fault ↔ (∀ xs, ¬ Spans s xs) ∧ fault = .mismatch .sequence := by
  constructor
  · refine fun h => ⟨fun xs hs => ?_, ?_⟩
    · cases h.symm.trans (elements_eq_ok_iff.2 hs)
    · cases s <;> cases h <;> rfl
  · rintro ⟨apart, rfl⟩
    cases h : elements s with
    | ok xs => exact absurd (elements_eq_ok_iff.1 h) (apart xs)
    | error fault' => cases s <;> cases h <;> rfl

/-! ## Several sequences -/

/-- The elements of all of some sequences in turn. -/
def together (ss : List Value) : Except EvalError (List Value) := (ss.mapM elements).map List.flatten

/-- `concat` makes a list of the elements put together. -/
theorem concat_eq (ss : List Value) : concat ss = (together ss).map .list := by
  rw [concat, together]
  cases ss.mapM elements <;> rfl

/-- Putting together is done from the left, and the first fault counts. -/
theorem together_append (ss ts : List Value) :
    together (ss ++ ts) = (together ss >>= fun xs => together ts >>= fun ys => .ok (xs ++ ys)) := by
  rw [together, together, together, List.mapM_append]
  cases ss.mapM elements with
  | error fault => rfl
  | ok xss =>
    cases ts.mapM elements with
    | error fault => rfl
    | ok yss => exact congrArg Except.ok List.flatten_append

/-- Arguments with the same elements may stand for each other, whatever is before and after them. -/
theorem together_congr (h : together ss = together ts) (before after : List Value) :
    together (before ++ ss ++ after) = together (before ++ ts ++ after) := by
  simp only [together_append, h]

theorem together_one (h : Spans s xs) : together [s] = .ok xs := by
  rw [together, List.mapM_cons, elements_eq_ok_iff.2 h]
  exact congrArg Except.ok (List.append_nil xs)

/-- Sequences put together are the elements of each, in order. -/
theorem together_eq_ok {xss : List (List Value)} (h : List.Forall₂ Spans ss xss) : together ss = .ok xss.flatten := by
  have all : ss.mapM elements = .ok xss := mapM_eq_ok_iff.2 (h.imp fun _ _ => elements_eq_ok_iff.2)
  rw [together, all]
  rfl

/-- One argument that is no sequence spoils the whole. -/
theorem together_eq_error (h : ∃ s ∈ ss, ∀ xs, ¬ Spans s xs) : together ss = .error (.mismatch .sequence) := by
  have failed : ss.mapM elements = .error (.mismatch .sequence) :=
    mapM_eq_error (fun _ _ hs => (elements_eq_error_iff.1 hs).2)
      (h.imp fun s hs => ⟨hs.1, elements_eq_error_iff.2 ⟨hs.2, rfl⟩⟩)
  rw [together, failed]
  rfl

/-- Either all of some values are sequences, or one is not. -/
theorem exists_spans (h : ¬ ∃ s ∈ ss, ∀ xs, ¬ Spans s xs) : ∃ xss, List.Forall₂ Spans ss xss := by
  induction ss with
  | nil => exact ⟨[], .nil⟩
  | cons s ss ih =>
    obtain ⟨xs, hs⟩ : ∃ xs, Spans s xs := by
      by_contra apart
      exact h ⟨s, List.mem_cons_self, not_exists.1 apart⟩
    obtain ⟨xss, hss⟩ := ih fun ⟨t, ht, apart⟩ => h ⟨t, List.mem_cons_of_mem s ht, apart⟩
    exact ⟨xs :: xss, .cons hs hss⟩

/-! ## Indices -/

/-- Indices are from zero up to the number of elements. -/
theorem nth_eq (h : s.items? = some xs) (i : Int64) :
    nth s (.int i) =
      (if i.toInt < 0 then none else xs[i.toInt.toNat]?).elim (.error (.badIndex i xs.length)) .ok := by
  simp only [nth, strict, h]
  cases (if i.toInt < 0 then none else xs[i.toInt.toNat]?) <;> rfl

/-- An index outside of the sequence is reported with the length. -/
theorem nth_outside (h : s.items? = some xs) {i : Int64} (out : ¬ (0 ≤ i.toInt ∧ i.toInt < xs.length)) :
    nth s (.int i) = .error (.badIndex i xs.length) := by
  rw [nth_eq h]
  split
  · rfl
  · rw [List.getElem?_eq_none (by omega), Option.elim_none]

/-- An index is taken as it stands: negative ones never count from the end. -/
theorem nth_eq_ok_iff (h : s.items? = some xs) {i : Int64} {x : Value} :
    nth s (.int i) = .ok x ↔ 0 ≤ i.toInt ∧ xs[i.toInt.toNat]? = some x := by
  rw [nth_eq h]
  by_cases hi : i.toInt < 0
  · rw [if_pos hi]
    exact iff_of_false (fun hx => nomatch hx) (by omega)
  · rw [if_neg hi]
    have lo : 0 ≤ i.toInt := by omega
    cases hx : xs[i.toInt.toNat]? <;> simp [lo]

/-- The elements of two lists, one after the other, by their indices. -/
theorem nth_append {t : Value} (hs : s.items? = some xs) (ht : Spans t ys) {i : Int64} {x : Value} :
    (i.toInt < xs.length → (nth (.list (xs ++ ys)) (.int i) = .ok x ↔ nth s (.int i) = .ok x)) ∧
      (xs.length ≤ i.toInt → (nth (.list (xs ++ ys)) (.int i) = .ok x ↔
        nth t (.int (i - Int64.ofNat xs.length)) = .ok x)) := by
  rw [nth_eq_ok_iff rfl, nth_eq_ok_iff hs]
  refine ⟨fun before => and_congr_right fun lo => ?_, fun after => ?_⟩
  · rw [List.getElem?_append_left (by omega)]
  · have back : (i - Int64.ofNat xs.length).toInt = i.toInt - xs.length := by
      have high := i.toInt_lt
      have low := i.le_toInt
      rw [Int64.toInt_sub, Int64.toInt_ofNat_of_lt (by omega), Int.bmod_eq_of_le (by omega) (by omega)]
    have index : (i - Int64.ofNat xs.length).toInt.toNat = i.toInt.toNat - xs.length := by omega
    rw [List.getElem?_append_right (by omega)]
    cases ht with
    | nil => simp [nth, strict, Value.items?]
    | list | vector =>
      rw [nth_eq_ok_iff rfl, index]
      exact and_congr_left fun _ => by omega

end Sequence

/-! ## Calls -/

namespace Call

variable {s x i : Value} {r : Except EvalError Value}

theorem yields_vec : Yields .vec [s] r ↔ Sequence.vec s = r := yields_iff rfl fun _ => rfl

theorem yields_isEmpty : Yields .isEmpty [s] r ↔ Sequence.isEmpty s = r := yields_iff rfl fun _ => rfl

theorem yields_count : Yields .count [s] r ↔ Sequence.count s = r := yields_iff rfl fun _ => rfl

theorem yields_cons : Yields .cons [x, s] r ↔ Sequence.cons x s = r := yields_iff rfl fun _ => rfl

theorem yields_concat {ss : List Value} : Yields .concat ss r ↔ Sequence.concat ss = r :=
  yields_iff (accepts_any rfl ss) fun _ => rfl

theorem yields_first : Yields .first [s] r ↔ Sequence.first s = r := yields_iff rfl fun _ => rfl

theorem yields_rest : Yields .rest [s] r ↔ Sequence.rest s = r := yields_iff rfl fun _ => rfl

theorem yields_nth : Yields .nth [s, i] r ↔ Sequence.nth s i = r := yields_iff rfl fun _ => rfl

end Call

section

variable {s t x : Value} {ss : List Value} {xs ys : List Value} {r : Except EvalError Value}

/-- `concat` always gives a list, and fails as its arguments do. -/
theorem yields_concat_iff : Yields .concat ss (.ok t) ↔ ∃ xs, Sequence.together ss = .ok xs ∧ t = .list xs := by
  rw [Call.yields_concat, Sequence.concat_eq]
  cases Sequence.together ss <;> simp [Except.map, eq_comm]

/-- What has the same elements as some arguments may stand for them. -/
theorem yields_concat_congr {ts : List Value} (h : Sequence.together ss = Sequence.together ts)
    (before after : List Value) :
    Yields .concat (before ++ ss ++ after) r ↔ Yields .concat (before ++ ts ++ after) r := by
  rw [Call.yields_concat, Call.yields_concat, Sequence.concat_eq, Sequence.concat_eq, Sequence.together_congr h]

namespace Spans

variable (h : Spans s xs)
include h

theorem yields_cons (x : Value) : Yields .cons [x, s] (.ok (.list (x :: xs))) := by
  rw [Call.yields_cons, Sequence.cons, Sequence.elements_eq_ok_iff.2 h]
  rfl

theorem yields_first : Yields .first [s] (.ok (xs.headD .nil)) := by
  rw [Call.yields_first, Sequence.first, Sequence.elements_eq_ok_iff.2 h]
  rfl

theorem yields_rest : Yields .rest [s] (.ok (.list xs.tail)) := by
  rw [Call.yields_rest, Sequence.rest, Sequence.elements_eq_ok_iff.2 h]
  rfl

theorem yields_vec : Yields .vec [s] (.ok (.vector xs)) := by
  rw [Call.yields_vec, Sequence.vec, Sequence.elements_eq_ok_iff.2 h]
  rfl

/-- A count is taken modulo 2^64, which no sequence in memory exceeds. -/
theorem yields_count_iff {n : Int64} : Yields .count [s] (.ok (.int n)) ↔ n = Int64.ofNat xs.length := by
  rw [Call.yields_count, Sequence.count, Sequence.elements_eq_ok_iff.2 h]
  simp [Except.map, eq_comm]

theorem yields_isEmpty_iff : Yields .isEmpty [s] (.ok (.bool true)) ↔ xs = [] := by
  rw [Call.yields_isEmpty, Sequence.isEmpty, Sequence.elements_eq_ok_iff.2 h]
  simp [Except.map]

end Spans

/-- `concat` gives a list exactly when each of its arguments is a sequence. -/
theorem yields_concat_ok_iff :
    Yields .concat ss (.ok t) ↔ ∃ xss, List.Forall₂ Spans ss xss ∧ t = .list xss.flatten := by
  rw [yields_concat_iff]
  constructor
  · rintro ⟨xs, hxs, rfl⟩
    by_cases h : ∃ s ∈ ss, ∀ xs, ¬ Spans s xs
    · cases hxs.symm.trans (Sequence.together_eq_error h)
    · obtain ⟨xss, hss⟩ := Sequence.exists_spans h
      cases hxs.symm.trans (Sequence.together_eq_ok hss)
      exact ⟨xss, hss, rfl⟩
  · rintro ⟨xss, hss, rfl⟩
    exact ⟨_, Sequence.together_eq_ok hss, rfl⟩

/-- It fails exactly when one of them is not, and there is one fault it fails with. -/
theorem yields_concat_error_iff {fault : EvalError} :
    Yields .concat ss (.error fault) ↔ (∃ s ∈ ss, ∀ xs, ¬ Spans s xs) ∧ fault = .mismatch .sequence := by
  rw [Call.yields_concat, Sequence.concat_eq]
  by_cases h : ∃ s ∈ ss, ∀ xs, ¬ Spans s xs
  · simp [Sequence.together_eq_error h, h, Except.map, eq_comm]
  · obtain ⟨xss, hss⟩ := Sequence.exists_spans h
    simp [Sequence.together_eq_ok hss, h, Except.map]

/-- What has been put together may be put together with more. -/
theorem yields_concat_assoc (h : Yields .concat ss (.ok t)) (before after : List Value) :
    Yields .concat (before ++ t :: after) r ↔ Yields .concat (before ++ ss ++ after) r := by
  obtain ⟨xs, hxs, rfl⟩ := yields_concat_iff.1 h
  have same : Sequence.together [.list xs] = Sequence.together ss := (Sequence.together_one (.list xs)).trans hxs.symm
  rw [← yields_concat_congr same, List.append_assoc, List.singleton_append]

/-- An empty sequence among the arguments makes no difference. -/
theorem yields_concat_empty (h : Spans s []) (before after : List Value) :
    Yields .concat (before ++ s :: after) r ↔ Yields .concat (before ++ after) r := by
  have same : Sequence.together [s] = Sequence.together [] := Sequence.together_one h
  have congr := yields_concat_congr (r := r) same before after
  rwa [List.append_assoc, List.singleton_append, List.append_nil] at congr

theorem exists_spans_of_yields_count {n : Int64} (h : Yields .count [s] (.ok (.int n))) :
    ∃ xs, Spans s xs ∧ n = Int64.ofNat xs.length := by
  have counted := Call.yields_count.1 h
  rw [Sequence.count] at counted
  cases hs : Sequence.elements s with
  | error fault =>
    rw [hs] at counted
    cases counted
  | ok xs =>
    rw [hs] at counted
    cases counted
    exact ⟨xs, Sequence.elements_eq_ok_iff.1 hs, rfl⟩

/-- The count of sequences put together is the sum of their counts. -/
theorem yields_count_concat {ns : List Int64} (h : List.Forall₂ (fun s n => Yields .count [s] (.ok (.int n))) ss ns) :
    ∃ t, Yields .concat ss (.ok t) ∧ Yields .count [t] (.ok (.int (ns.foldr (· + ·) 0))) := by
  have parts : ∃ xss, List.Forall₂ Spans ss xss ∧ ns.foldr (· + ·) 0 = Int64.ofNat xss.flatten.length := by
    induction h with
    | nil => exact ⟨[], .nil, rfl⟩
    | cons hs _ ih =>
      obtain ⟨xs, hxs, rfl⟩ := exists_spans_of_yields_count hs
      obtain ⟨xss, hxss, sum⟩ := ih
      refine ⟨xs :: xss, .cons hxs hxss, ?_⟩
      rw [List.foldr_cons, sum, List.flatten_cons, List.length_append, Int64.ofNat_add]
  obtain ⟨xss, hxss, sum⟩ := parts
  exact ⟨_, yields_concat_ok_iff.2 ⟨xss, hxss, rfl⟩, (Spans.list _).yields_count_iff.2 sum⟩

/-- An element in front adds one to the count. -/
theorem yields_count_cons {n : Int64} (h : Yields .count [s] (.ok (.int n))) (x : Value) :
    ∃ t, Yields .cons [x, s] (.ok t) ∧ Yields .count [t] (.ok (.int (n + 1))) := by
  obtain ⟨xs, hxs, rfl⟩ := exists_spans_of_yields_count h
  refine ⟨_, hxs.yields_cons x, (Spans.list _).yields_count_iff.2 ?_⟩
  rw [List.length_cons, Int64.ofNat_add]
  rfl

/-- A count is exact, as no list is as long as 2^63. -/
theorem Spans.exact_count (h : Spans s xs) (short : xs.length < 2 ^ 63) :
    ∃ n : Int64, Yields .count [s] (.ok (.int n)) ∧ n.toInt = xs.length ∧
      (Yields .isEmpty [s] (.ok (.bool true)) ↔ n = 0) := by
  have exact : (Int64.ofNat xs.length).toInt = xs.length := Int64.toInt_ofNat_of_lt short
  refine ⟨_, h.yields_count_iff.2 rfl, exact, ?_⟩
  rw [h.yields_isEmpty_iff, ← Int64.toInt_inj, exact, Int64.toInt_zero, Int.natCast_eq_zero, List.length_eq_zero_iff]

/-- `nth` gives the element at its index or nothing. -/
theorem yields_nth_ok_iff (h : s.items? = some xs) {i : Int64} :
    Yields .nth [s, .int i] (.ok x) ↔ 0 ≤ i.toInt ∧ xs[i.toInt.toNat]? = some x := by
  rw [Call.yields_nth, Sequence.nth_eq_ok_iff h]

/-- Exactly the indices of elements lead to something. -/
theorem exists_yields_nth_iff (h : s.items? = some xs) {i : Int64} :
    (∃ x, Yields .nth [s, .int i] (.ok x)) ↔ 0 ≤ i.toInt ∧ i.toInt < xs.length := by
  simp only [yields_nth_ok_iff h, exists_and_left, List.getElem?_eq_some_iff]
  refine and_congr_right fun lo => ⟨fun ⟨x, inside, _⟩ => by omega, fun inside => ⟨_, by omega, rfl⟩⟩

end

/-- **The builtins on sequences obey the laws of lists.** Nil is read as the empty list, and vectors as lists. `first`
and `rest` undo `cons`, and of what is not empty `cons` puts together again what they take apart. `concat` puts all
elements into one list; it may be done in parts, and what is empty does nothing to it; it fails just when something is no
sequence. Counts add up to that of the whole, and are one more under `cons`; only what is empty has a count of zero,
where a count is exact, as it is for every list shorter than 2^63. `vec` keeps the elements. `nth` takes each element of
a list or a vector by its index from zero, and reports every other index together with the number of elements; of two
sequences put together it finds the elements of the first one and then those of the second one. -/
theorem sequence_builtins_obey_the_laws_of_lists :
    (∀ s xs, Spans s xs → ∀ x, ∃ t u, Yields .cons [x, s] (.ok t) ∧ Yields .first [t] (.ok x) ∧
      Yields .rest [t] (.ok u) ∧ Spans u xs) ∧
    (∀ s xs, Spans s xs → xs ≠ [] → ∃ x t u, Yields .first [s] (.ok x) ∧ Yields .rest [s] (.ok t) ∧
      Yields .cons [x, t] (.ok u) ∧ Spans u xs) ∧
    (∀ ss t, Yields .concat ss (.ok t) ↔ ∃ xss, List.Forall₂ Spans ss xss ∧ t = .list xss.flatten) ∧
    (∀ ss fault, Yields .concat ss (.error fault) ↔ (∃ s ∈ ss, ∀ xs, ¬ Spans s xs) ∧ fault = .mismatch .sequence) ∧
    (∀ ss t, Yields .concat ss (.ok t) → ∀ before after r,
      Yields .concat (before ++ t :: after) r ↔ Yields .concat (before ++ ss ++ after) r) ∧
    (∀ s, Spans s [] → ∀ before after r,
      Yields .concat (before ++ s :: after) r ↔ Yields .concat (before ++ after) r) ∧
    (∀ ss ns, List.Forall₂ (fun s n => Yields .count [s] (.ok (.int n))) ss ns →
      ∃ t, Yields .concat ss (.ok t) ∧ Yields .count [t] (.ok (.int (ns.foldr (· + ·) 0)))) ∧
    (∀ s n, Yields .count [s] (.ok (.int n)) → ∀ x, ∃ t, Yields .cons [x, s] (.ok t) ∧
      Yields .count [t] (.ok (.int (n + 1)))) ∧
    (∀ s xs, Spans s xs → xs.length < 2 ^ 63 → ∃ n : Int64, Yields .count [s] (.ok (.int n)) ∧ n.toInt = xs.length ∧
      (Yields .isEmpty [s] (.ok (.bool true)) ↔ n = 0)) ∧
    (∀ s xs, Spans s xs → Yields .vec [s] (.ok (.vector xs))) ∧
    (∀ s xs, s.items? = some xs → ∀ i : Int64,
      ((∃ x, Yields .nth [s, .int i] (.ok x)) ↔ 0 ≤ i.toInt ∧ i.toInt < xs.length) ∧
      (∀ x, Yields .nth [s, .int i] (.ok x) → xs[i.toInt.toNat]? = some x) ∧
      (¬ (0 ≤ i.toInt ∧ i.toInt < xs.length) → Yields .nth [s, .int i] (.error (.badIndex i xs.length)))) ∧
    (∀ s t xs ys n, s.items? = some xs → Spans t ys → Yields .count [s] (.ok (.int n)) →
      ∃ u, Yields .concat [s, t] (.ok u) ∧ ∀ (i : Int64) x,
        (i.toInt < xs.length → (Yields .nth [u, .int i] (.ok x) ↔ Yields .nth [s, .int i] (.ok x))) ∧
        (xs.length ≤ i.toInt → (Yields .nth [u, .int i] (.ok x) ↔ Yields .nth [t, .int (i - n)] (.ok x)))) := by
  refine ⟨fun s xs h x => ?_, fun s xs h ne => ?_, fun ss t => yields_concat_ok_iff,
    fun ss fault => yields_concat_error_iff, fun ss t h before after r => yields_concat_assoc h before after,
    fun s h before after r => yields_concat_empty h before after, fun ss ns => yields_count_concat,
    fun s n => yields_count_cons, fun s xs => Spans.exact_count, fun s xs => Spans.yields_vec,
    fun s xs h i => ⟨exists_yields_nth_iff h, fun x hx => ((yields_nth_ok_iff h).1 hx).2,
      fun out => Call.yields_nth.2 (Sequence.nth_outside h out)⟩, fun s t xs ys n hs ht hn => ?_⟩
  · exact ⟨_, _, h.yields_cons x, (Spans.list _).yields_first, (Spans.list _).yields_rest, .list xs⟩
  · obtain ⟨x, xs, rfl⟩ := List.exists_cons_of_ne_nil ne
    exact ⟨x, .list xs, _, h.yields_first, h.yields_rest, (Spans.list xs).yields_cons x, .list _⟩
  · have spans := Spans.of_items? hs
    refine ⟨.list (xs ++ ys), yields_concat_ok_iff.2 ⟨[xs, ys], .cons spans (.cons ht .nil), by simp⟩, fun i x => ?_⟩
    rw [spans.yields_count_iff.1 hn, Call.yields_nth, Call.yields_nth, Call.yields_nth]
    exact Sequence.nth_append hs ht

theorem sequence_builtins_obey_the_laws_of_lists_mixed :
    (∃ t u, Yields .cons [.nil, .vector [.int 1]] (.ok t) ∧ Yields .first [t] (.ok .nil) ∧ Yields .rest [t] (.ok u) ∧
      Spans u [.int 1]) ∧
    (∃ x t u, Yields .first [.vector [.int 1]] (.ok x) ∧ Yields .rest [.vector [.int 1]] (.ok t) ∧
      Yields .cons [x, t] (.ok u) ∧ Spans u [.int 1]) ∧
    (Yields .concat [.int 1, .list [], .nil] (.error (.mismatch .sequence)) ↔
      Yields .concat [.int 1, .nil] (.error (.mismatch .sequence))) ∧
    (Yields .concat [.list [], .nil] (.ok (.list [])) ↔ Yields .concat [.list []] (.ok (.list []))) ∧
    (∃ t, Yields .concat [.nil] (.ok t) ∧ Yields .count [t] (.ok (.int 0))) ∧
    (∃ t, Yields .cons [.nil, .nil] (.ok t) ∧ Yields .count [t] (.ok (.int 1))) ∧
    (∃ n : Int64, Yields .count [.nil] (.ok (.int n)) ∧ n.toInt = 0 ∧
      (Yields .isEmpty [.nil] (.ok (.bool true)) ↔ n = 0)) ∧
    Yields .vec [.list [.int 1]] (.ok (.vector [.int 1])) ∧
    Yields .nth [.list [.int 1], .int (-1)] (.error (.badIndex (-1) 1)) ∧
    ∃ u, Yields .concat [.list [.int 1], .nil] (.ok u) ∧
      (Yields .nth [u, .int 0] (.ok (.int 1)) ↔ Yields .nth [.list [.int 1], .int 0] (.ok (.int 1))) := by
  obtain ⟨undone, again, joined, -, parts, empty, counts, more, exact, vector, index, both⟩ :=
    sequence_builtins_obey_the_laws_of_lists
  have none : Yields .count [.nil] (.ok (.int 0)) := Spans.nil.yields_count_iff.2 rfl
  have one : Yields .count [.list [.int 1]] (.ok (.int 1)) := (Spans.list _).yields_count_iff.2 rfl
  obtain ⟨u, hu, elements⟩ := both (.list [.int 1]) .nil [.int 1] [] 1 rfl .nil one
  exact ⟨undone _ _ (.vector _) .nil, again _ _ (.vector _) (by simp),
    parts [] (.list []) ((joined [] _).2 ⟨[], .nil, rfl⟩) [.int 1] [.nil] _, empty .nil .nil [.list []] [] _,
    counts [.nil] [0] (.cons none .nil), more .nil 0 none .nil, exact .nil [] .nil (by decide),
    vector _ _ (.list _), (index (.list [.int 1]) [.int 1] rfl (-1)).2.2 (by decide),
    u, hu, (elements 0 (.int 1)).1 (by decide)⟩

end MiniLisp

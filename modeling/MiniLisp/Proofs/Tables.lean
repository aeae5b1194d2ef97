import Mathlib
import MiniLisp.Proofs.Literals
import MiniLisp.Proofs.Settled

/-!
# The builtins on maps

The builtins on maps, held against finite maps, which are functions from keys to what is bound to them. Values in turn
spell a finite map, in which the last value for a key counts (`Entries.lastIn`); `assoc` puts such a map over another
one, and `dissoc` takes keys away (`Built`). Whatever calls a map comes from, all that can be looked up in it is one
finite map (`Shows`).

* `Entries.lastIn_eq_some_iff`: what is bound to a key, by the places where the key stands.
* **Finite maps** (`map_builtins_are_finite_maps`): the builtins on maps do to finite maps what they say.
-/

namespace MiniLisp

/-! ## Values in turn -/

/-- Whether a value can be a key: texts and keywords can. -/
def Value.isKey : Value → Bool
  | .text _ | .keyword _ => true
  | _ => false

theorem Key.isKey_toValue (k : Key) : k.toValue.isKey = true := by cases k <;> rfl

/-- A value is a key exactly when it is the value of one. -/
theorem Key.ofValue?_eq_some_iff {v : Value} {k : Key} : ofValue? v = some k ↔ v = k.toValue :=
  ⟨fun h => (toValue_of_ofValue? h).symm, fun h => h ▸ ofValue?_toValue k⟩

theorem Key.ofValue?_eq_none_iff {v : Value} : ofValue? v = none ↔ v.isKey = false := by
  cases v <;> simp [ofValue?, Value.isKey]

theorem Key.toValue_inj {k l : Key} : k.toValue = l.toValue ↔ k = l :=
  ⟨fun h => Option.some.inj (by rw [← ofValue?_toValue k, h, ofValue?_toValue]), congrArg toValue⟩

/-- Every value that may be a key is the value of a key. -/
theorem Value.eq_toValue_of_isKey {v : Value} (h : v.isKey = true) : ∃ k : Key, v = k.toValue := by
  cases hk : Key.ofValue? v with
  | some k => exact ⟨k, Key.ofValue?_eq_some_iff.1 hk⟩
  | none =>
    rw [Key.ofValue?_eq_none_iff.1 hk] at h
    cases h

namespace Entries

variable {k : Key} {v : Value} {xs ys : List Value} {es : Entries}

/-- The last value that stands after a key, where keys and values stand in turn. -/
def lastIn (k : Key) : List Value → Option Value
  | x :: v :: rest => (lastIn k rest).or (if Key.ofValue? x = some k then some v else none)
  | _ => none

/-- A key stands at a place for keys, and a value right after it. -/
def StandsAt (xs : List Value) (i : Nat) (k : Key) (v : Value) : Prop :=
  xs[2 * i]? = some k.toValue ∧ xs[2 * i + 1]? = some v

theorem standsAt_zero {x w : Value} : StandsAt (x :: w :: xs) 0 k v ↔ x = k.toValue ∧ w = v := by
  simp [StandsAt]

/-- An entry further down, counted from the next pair. -/
theorem standsAt_succ {x w : Value} {i : Nat} : StandsAt (x :: w :: xs) (i + 1) k v ↔ StandsAt xs i k v := by
  simp only [StandsAt, Nat.mul_add, Nat.mul_one, List.getElem?_cons_succ, Nat.add_right_comm _ 2 1]

/-- A key has no last entry exactly when it has no entry. -/
theorem lastIn_eq_none_iff : lastIn k xs = none ↔ ∀ i v, ¬ StandsAt xs i k v := by
  fun_induction lastIn k xs with
  | case1 x w rest ih =>
    rw [Option.or_eq_none_iff, ih]
    constructor
    · rintro ⟨none, here⟩ (_ | i) v at'
      · simp [Key.ofValue?_eq_some_iff, (standsAt_zero.1 at').1] at here
      · exact none i v (standsAt_succ.1 at')
    · refine fun none => ⟨fun i v at' => none (i + 1) v (standsAt_succ.2 at'), if_neg fun hx => ?_⟩
      exact none 0 w (standsAt_zero.2 ⟨Key.ofValue?_eq_some_iff.1 hx, rfl⟩)
  | case2 xs h =>
    refine iff_of_true rfl fun i v at' => ?_
    match xs, at' with
    | [x], ⟨_, after⟩ => simp at after
    | x :: w :: rest, _ => exact h x w rest rfl

/-- The last value that stands after a key is told by the places where the key stands. -/
theorem lastIn_eq_some_iff :
    lastIn k xs = some v ↔ ∃ i, StandsAt xs i k v ∧ ∀ j w, StandsAt xs j k w → j ≤ i := by
  fun_induction lastIn k xs with
  | case1 x w rest ih =>
    rw [Option.or_eq_some_iff, ih, lastIn_eq_none_iff]
    constructor
    · rintro (⟨i, at', last⟩ | ⟨none, here⟩)
      · refine ⟨i + 1, standsAt_succ.2 at', fun j u hj => ?_⟩
        cases j with
        | zero => exact Nat.zero_le _
        | succ j => exact Nat.succ_le_succ (last j u (standsAt_succ.1 hj))
      · obtain ⟨hx, hw⟩ := Option.ite_none_right_eq_some.1 here
        refine ⟨0, standsAt_zero.2 ⟨Key.ofValue?_eq_some_iff.1 hx, Option.some.inj hw⟩, fun j u hj => ?_⟩
        cases j with
        | zero => exact Nat.le_refl 0
        | succ j => exact absurd (standsAt_succ.1 hj) (none j u)
    · rintro ⟨_ | i, at', last⟩
      · obtain ⟨rfl, rfl⟩ := standsAt_zero.1 at'
        refine .inr ⟨fun i u hi => ?_, by rw [if_pos (Key.ofValue?_toValue k)]⟩
        exact absurd (last (i + 1) u (standsAt_succ.2 hi)) (by simp)
      · exact .inl ⟨i, standsAt_succ.1 at', fun j u hj =>
          Nat.le_of_succ_le_succ (last (j + 1) u (standsAt_succ.2 hj))⟩
  | case2 xs h =>
    refine iff_of_false (by simp) ?_
    rintro ⟨i, at', -⟩
    match xs, at' with
    | [x], ⟨_, after⟩ => simp at after
    | x :: w :: rest, _ => exact h x w rest rfl

/-- The last entry for a key is the first one from the back. -/
theorem lastIn_items (k : Key) (es : Entries) : lastIn k es.items = find? k es.reverse := by
  induction es with
  | nil => rfl
  | cons e es ih =>
    change lastIn k (e.1.toValue :: e.2 :: items es) = _
    rw [lastIn, ih, List.reverse_cons, find?_append]
    simp only [Key.ofValue?_toValue, Option.some.injEq, find?]

theorem items_append (es fs : Entries) : items (es ++ fs) = es.items ++ fs.items := List.flatMap_append

/-- Which entries values in turn spell, if they spell any. -/
theorem find?_of_ofItems? (h : ofItems? xs = .ok es) (k : Key) : es.find? k = lastIn k xs := by
  obtain ⟨ps, rfl, -, found⟩ := ofItems?_eq_ok_iff.1 h
  rw [found, lastIn_items]

/-! ## Which values in turn spell entries -/

/-- Keys at all the places for keys. -/
def KeysInPlace (xs : List Value) : Prop := ∀ i x, xs[2 * i]? = some x → x.isKey = true

theorem keysInPlace_items (es : Entries) : KeysInPlace es.items := by
  induction es with
  | nil => intro i x hx; cases hx
  | cons e es ih =>
    rintro (_ | i) x hx
    · cases hx
      exact e.1.isKey_toValue
    · exact ih i x hx

/-- Values in turn spell entries just when they are even in number, with keys in place. -/
theorem ofItems?_ok_iff : (∃ es, ofItems? xs = .ok es) ↔ xs.length % 2 = 0 ∧ KeysInPlace xs := by
  constructor
  · rintro ⟨es, h⟩
    obtain ⟨ps, rfl, -, -⟩ := ofItems?_eq_ok_iff.1 h
    exact ⟨by rw [length_items]; omega, keysInPlace_items ps⟩
  · rintro ⟨even, keys⟩
    cases h : ofItems? xs with
    | ok es => exact ⟨es, rfl⟩
    | error fault =>
      cases ofItems?_eq_error_iff.1 h with
      | missingValue odd => omega
      | @badKey ps k hk v rest =>
        have stands : (ps.items ++ k :: v :: rest)[2 * ps.length]? = some k := by
          rw [← length_items, List.getElem?_append_right (Nat.le_refl _), Nat.sub_self]
          rfl
        have due := keys ps.length k stands
        rw [Key.ofValue?_eq_none_iff.1 hk] at due
        cases due

/-- An odd count of items is reported before any key is looked at. -/
theorem ofItems?_odd (h : xs.length % 2 = 1) : ofItems? xs = .error .missingValue :=
  ofItems?_eq_error_iff.2 (.missingValue h)

/-- An even count with something else in a key's place. -/
theorem ofItems?_badKey (h : xs.length % 2 = 0) (hk : ¬ KeysInPlace xs) : ofItems? xs = .error .badKey := by
  cases hx : ofItems? xs with
  | ok es => exact absurd (ofItems?_ok_iff.1 ⟨es, hx⟩).2 hk
  | error fault =>
    cases ofItems?_eq_error_iff.1 hx with
    | missingValue odd => omega
    | badKey => rfl

/-- In an ordered list of entries every key occurs once, so the direction of the search makes no difference. -/
theorem find?_reverse (h : es.Ordered) (k : Key) : find? k es.reverse = es.find? k := by
  have same : insertAll [] es = es := insertAll_eq_of_perm h (List.Perm.refl es)
  have found := find?_insertAll k es []
  rw [same, find?, Option.or_none] at found
  exact found.symm

/-- Entries put in one after another are those of all the values in turn. -/
theorem ofItems?_append (h : ofItems? xs = .ok es) (ys : List Value) :
    ofItems? (xs ++ ys) = (ofItems? ys).map es.insertAll := by
  obtain ⟨ps, rfl, ordered, found⟩ := ofItems?_eq_ok_iff.1 h
  cases hy : ofItems? ys with
  | ok fs =>
    obtain ⟨qs, rfl, ordered', found'⟩ := ofItems?_eq_ok_iff.1 hy
    refine ofItems?_eq_ok_iff.2 ⟨ps ++ qs, (items_append ps qs).symm, ordered_insertAll fs ordered, fun k => ?_⟩
    rw [find?_insertAll, find?_reverse ordered', found, found', List.reverse_append, find?_append]
  | error fault =>
    refine ofItems?_eq_error_iff.2 ?_
    cases ofItems?_eq_error_iff.1 hy with
    | missingValue odd => exact .missingValue (by rw [List.length_append, length_items]; omega)
    | badKey qs hk v even =>
      rw [← List.append_assoc, ← items_append]
      exact .badKey (ps ++ qs) hk v even

/-! ## Taking keys away -/

theorem find?_erase (k l : Key) (es : Entries) : (es.erase l).find? k = if k = l then none else es.find? k := by
  induction es with
  | nil => simp [erase, find?]
  | cons e es ih =>
    obtain ⟨n, w⟩ := e
    rw [erase] at ih ⊢
    by_cases hn : n = l
    · subst hn
      by_cases hk : n = k <;> simp_all [find?, eq_comm]
    · by_cases hk : n = k
      · subst hk
        simp [find?, hn]
      · simpa [find?, hn, hk] using ih

theorem ordered_erase (h : es.Ordered) (l : Key) : (es.erase l).Ordered := h.filter _

/-- The entries without some keys. -/
def eraseAll (es : Entries) (ls : List Key) : Entries := ls.foldl (fun acc k => Entries.erase k acc) es

theorem ordered_eraseAll (h : es.Ordered) (ls : List Key) : (es.eraseAll ls).Ordered := by
  induction ls generalizing es with
  | nil => exact h
  | cons l ls ih => exact ih (ordered_erase h l)

/-- Erasing keys leaves the others with their values. -/
theorem find?_eraseAll (k : Key) (ls : List Key) (es : Entries) :
    (es.eraseAll ls).find? k = if k ∈ ls then none else es.find? k := by
  induction ls generalizing es with
  | nil => rfl
  | cons l ls ih =>
    rw [eraseAll, List.foldl_cons, ← eraseAll, ih, find?_erase]
    by_cases hk : k = l <;> simp [hk]

/-! ## What is there -/

/-- An ordered list of entries is the graph of a finite function. -/
theorem find?_eq_some_iff (h : es.Ordered) : es.find? k = some v ↔ (k, v) ∈ es := by
  induction es with
  | nil => simp [find?]
  | cons e es ih =>
    obtain ⟨l, w⟩ := e
    obtain ⟨first, rest⟩ := List.pairwise_cons.1 h
    by_cases hl : l = k
    · subst hl
      have absent : (l, v) ∉ es := fun hmem => by
        have before := first _ hmem
        rw [Key.before_irrefl] at before
        cases before
      simp [find?, absent, eq_comm]
    · simp [find?, hl, Ne.symm hl, ih rest]

/-- Its keys are distinct. -/
theorem keys_nodup (h : es.Ordered) : es.keys.Nodup := by
  refine List.Pairwise.map _ (fun a b hab => ?_) (ne_of_ordered h)
  exact fun same => hab (Key.toValue_inj.1 same)

/-- Keys and values are listed in one order. -/
theorem mem_iff_keys_values : (k, v) ∈ es ↔ ∃ i : Nat, es.keys[i]? = some k.toValue ∧ es.values[i]? = some v := by
  rw [List.mem_iff_getElem?]
  refine exists_congr fun i => ?_
  simp only [keys, values, List.getElem?_map]
  cases es[i]? with
  | none => simp
  | some e => simp [Prod.ext_iff, Key.toValue_inj]

end Entries

/-! ## Calls -/

namespace Call

variable {args : List Value} {r : Except EvalError Value}

theorem yields_hashMap : Yields .hashMap args r ↔ Table.hashMap args = r :=
  yields_iff (accepts_any rfl args) fun _ => rfl

theorem yields_assoc {t : Value} : Yields .assoc (t :: args) r ↔ Table.assoc t args = r :=
  yields_iff (accepts_operands rfl t args) fun _ => rfl

/-- `dissoc` of keys gives a map without them. -/
theorem yields_dissoc {t : Value} : Yields .dissoc (t :: args) r ↔ Table.dissoc t args = r :=
  yields_iff (accepts_operands rfl t args) fun _ => rfl

theorem yields_get {t k : Value} : Yields .get [t, k] r ↔ Table.get t k = r := yields_iff rfl fun _ => rfl

theorem yields_contains {t k : Value} : Yields .contains [t, k] r ↔ Table.contains t k = r :=
  yields_iff rfl fun _ => rfl

theorem yields_keys {t : Value} : Yields .keys [t] r ↔ Table.keys t = r := yields_iff rfl fun _ => rfl

theorem yields_vals {t : Value} : Yields .vals [t] r ↔ Table.vals t = r := yields_iff rfl fun _ => rfl

end Call

open Call (Yields)

/-! ## Maps as finite maps -/

namespace Table

variable {xs ks : List Value} {t : Value} {es : Entries} {fault : MapError}

theorem hashMap_of_ok (h : Entries.ofItems? xs = .ok es) : hashMap xs = .ok (.map es) := by
  simp only [hashMap, additions, h, Except.map]

theorem hashMap_of_error (h : Entries.ofItems? xs = .error fault) : hashMap xs = .error (.badMap fault) := by
  simp only [hashMap, additions, h, Except.map]

/-- Whatever `hash-map` gives is the map of its items. -/
theorem of_hashMap (h : hashMap xs = .ok t) : ∃ es, t = .map es ∧ Entries.ofItems? xs = .ok es := by
  cases hx : Entries.ofItems? xs with
  | ok es =>
    rw [hashMap_of_ok hx] at h
    cases h
    exact ⟨es, rfl, rfl⟩
  | error fault =>
    rw [hashMap_of_error hx] at h
    cases h

/-- Putting entries over those of a map. -/
theorem assoc_map (es : Entries) (ys : List Value) :
    assoc (.map es) ys = match Entries.ofItems? ys with
      | .ok fs => .ok (.map (es.insertAll fs))
      | .error fault => .error (.badMap fault) := by
  simp only [assoc, entries, additions]
  cases Entries.ofItems? ys <;> rfl

theorem mapM_key (ls : List Key) : (ls.map Key.toValue).mapM key = .ok ls := by
  have taken (l : Key) : key l.toValue = .ok (id l) := by
    rw [key, Key.ofValue?_toValue]
    rfl
  rw [mapM_map_ok taken, List.map_id]

/-- One value that is no key spoils the whole list of keys. -/
theorem mapM_key_error (h : ∃ x ∈ ks, x.isKey = false) : ks.mapM key = .error (.mismatch .key) := by
  refine mapM_eq_error (fun x fault hx => ?_) (h.imp fun x hx => ⟨hx.1, ?_⟩)
  · unfold key at hx
    split at hx <;> cases hx
    rfl
  · rw [key, Key.ofValue?_eq_none_iff.2 hx.2]

theorem exists_keys (h : ∀ x ∈ ks, x.isKey = true) : ∃ ls : List Key, ks = ls.map Key.toValue := by
  have keys : ks ∈ Set.range (List.map Key.toValue) := by
    rw [Set.range_list_map]
    exact fun x hx => (Value.eq_toValue_of_isKey (h x hx)).imp fun _ => Eq.symm
  exact keys.imp fun _ => Eq.symm

/-- Taking keys away from a map. -/
theorem dissoc_map (es : Entries) (ls : List Key) :
    dissoc (.map es) (ls.map Key.toValue) = .ok (.map (es.eraseAll ls)) := by
  simp only [dissoc, entries, mapM_key, Except.map, Entries.eraseAll]

theorem dissoc_of_badKey (es : Entries) (h : ∃ x ∈ ks, x.isKey = false) :
    dissoc (.map es) ks = .error (.mismatch .key) := by
  simp only [dissoc, entries, mapM_key_error h, Except.map]

/-- `dissoc` that gives something has been given keys, and has erased them. -/
theorem of_dissoc {t' : Value} (h : dissoc (.map es) ks = .ok t') :
    ∃ ls : List Key, ks = ls.map Key.toValue ∧ t' = .map (es.eraseAll ls) := by
  by_cases hk : ∃ x ∈ ks, x.isKey = false
  · rw [dissoc_of_badKey es hk] at h
    cases h
  · obtain ⟨ls, rfl⟩ := exists_keys fun x hx => Bool.eq_true_of_not_eq_false fun bad => hk ⟨x, hx, bad⟩
    rw [dissoc_map] at h
    cases h
    exact ⟨ls, rfl, rfl⟩

theorem ofValue?_mem (ls : List Key) (k : Key) : some k ∈ (ls.map Key.toValue).map Key.ofValue? ↔ k ∈ ls := by
  simp [Key.ofValue?_toValue]

end Table

/-- A map that calls have made, one of the map that another one gave, and the finite map that it should be. -/
inductive Built : Value → (Key → Option Value) → Prop
  | hashMap {ctx xs m t n} (h : Call.builtin ctx .hashMap xs m = some (.ok t, n)) :
      Built t fun k => Entries.lastIn k xs
  | assoc {ctx t f ys m t' n} (ht : Built t f) (h : Call.builtin ctx .assoc (t :: ys) m = some (.ok t', n)) :
      Built t' fun k => (Entries.lastIn k ys).or (f k)
  | dissoc {ctx t f ks m t' n} (ht : Built t f) (h : Call.builtin ctx .dissoc (t :: ks) m = some (.ok t', n)) :
      Built t' fun k => if some k ∈ ks.map Key.ofValue? then none else f k

/-- A finite map that is all that can be looked up in a value. The keys come in some order, each of them once, and the
values in the same order. -/
structure Shows (t : Value) (f : Key → Option Value) : Prop where
  get (k : Key) : Yields .get [t, k.toValue] (.ok ((f k).getD .nil))
  contains (k : Key) : Yields .contains [t, k.toValue] (.ok (.bool (f k).isSome))
  entries : ∃ ks vs, Yields .keys [t] (.ok (.list ks)) ∧ Yields .vals [t] (.ok (.list vs)) ∧ ks.Nodup ∧
    ks.length = vs.length ∧ (∀ x ∈ ks, x.isKey = true) ∧
    ∀ k v, f k = some v ↔ ∃ i : Nat, ks[i]? = some k.toValue ∧ vs[i]? = some v

/-- Ordered entries in which a finite map is found. -/
def Entries.Represents (es : Entries) (f : Key → Option Value) : Prop := es.Ordered ∧ ∀ k, es.find? k = f k

namespace Entries.Represents

variable {es : Entries} {f : Key → Option Value} {xs ys : List Value}

theorem ofItems? (h : Entries.ofItems? xs = .ok es) : es.Represents fun k => lastIn k xs :=
  ⟨(of_ofItems? h).1, find?_of_ofItems? h⟩

/-- Adding items to a map that represents a function: the new items come first, the function after. -/
theorem insertAll {fs : Entries} (h : es.Represents f) (hy : Entries.ofItems? ys = .ok fs) :
    (es.insertAll fs).Represents fun k => (lastIn k ys).or (f k) := by
  refine ⟨ordered_insertAll fs h.1, fun k => ?_⟩
  rw [find?_insertAll, find?_reverse (of_ofItems? hy).1, find?_of_ofItems? hy, h.2]

/-- Erasing keys cuts the function down. -/
theorem eraseAll (h : es.Represents f) (ls : List Key) :
    (es.eraseAll ls).Represents
      fun k => if some k ∈ (ls.map Key.toValue).map Key.ofValue? then none else f k := by
  refine ⟨ordered_eraseAll h.1 ls, fun k => ?_⟩
  rw [find?_eraseAll, h.2]
  simp only [Table.ofValue?_mem]

/-- A map that represents a function shows it through every builtin for maps. -/
theorem shows (h : es.Represents f) : Shows (.map es) f where
  get k := by
    rw [Call.yields_get, ← h.2]
    simp only [Table.get, Table.entries, Table.key, Key.ofValue?_toValue, Except.map]
  contains k := by
    rw [Call.yields_contains, ← h.2]
    simp only [Table.contains, Table.entries, Table.key, Key.ofValue?_toValue, Except.map]
  entries := by
    refine ⟨es.keys, es.values, Call.yields_keys.2 rfl, Call.yields_vals.2 rfl, keys_nodup h.1, ?_, ?_, ?_⟩
    · simp [keys, values]
    · intro x hx
      obtain ⟨e, -, rfl⟩ := List.mem_map.1 hx
      exact e.1.isKey_toValue
    · intro k v
      rw [← h.2, find?_eq_some_iff h.1, mem_iff_keys_values]

end Entries.Represents

/-- Every call keeps up with its finite map. -/
theorem Built.represents {t : Value} {f : Key → Option Value} (h : Built t f) :
    ∃ es : Entries, t = .map es ∧ es.Represents f := by
  induction h with
  | hashMap h =>
    have made := Call.builtin_outcome (Call.accepts_any rfl _) rfl h
    obtain ⟨es, rfl, hes⟩ := Table.of_hashMap made.symm
    exact ⟨es, rfl, .ofItems? hes⟩
  | @assoc _ _ _ ys _ _ _ _ h ih =>
    obtain ⟨es, rfl, hes⟩ := ih
    have made := Call.builtin_outcome (Call.accepts_operands rfl _ _) rfl h
    rw [Table.assoc_map] at made
    cases hy : Entries.ofItems? ys with
    | ok fs =>
      rw [hy] at made
      cases made
      exact ⟨_, rfl, hes.insertAll hy⟩
    | error fault =>
      rw [hy] at made
      cases made
  | dissoc _ h ih =>
    obtain ⟨es, rfl, hes⟩ := ih
    have made := Call.builtin_outcome (Call.accepts_operands rfl _ _) rfl h
    obtain ⟨ls, rfl, rfl⟩ := Table.of_dissoc made.symm
    exact ⟨_, rfl, hes.eraseAll ls⟩

/-! ## Map literals -/

namespace Entries

variable {m : Machine} {e : FrameId} {ps qs es fs : Entries}

/-- Entries of forms that come to values without any effect, and the entries of these values. -/
def Passing (m : Machine) (e : FrameId) (ps qs : Entries) : Prop :=
  List.Forall₂ (fun p q : Key × Value => p.1 = q.1 ∧ ComesTo m e p.2 (.ok q.2)) ps qs

namespace Passing

theorem insert (h : Passing m e es fs) {k : Key} {x v : Value} (hx : ComesTo m e x (.ok v)) :
    Passing m e (es.insert k x) (fs.insert k v) := by
  induction h with
  | nil => exact .cons ⟨rfl, hx⟩ .nil
  | @cons p q es fs hpq hes ih =>
    obtain ⟨l, y⟩ := p
    obtain ⟨_, w⟩ := q
    obtain ⟨rfl, hy⟩ := hpq
    simp only [Entries.insert]
    split
    · exact .cons ⟨rfl, hx⟩ hes
    split
    · exact .cons ⟨rfl, hx⟩ (.cons ⟨rfl, hy⟩ hes)
    · exact .cons ⟨rfl, hy⟩ ih

theorem insertAll (h : Passing m e ps qs) (hes : Passing m e es fs) :
    Passing m e (es.insertAll ps) (fs.insertAll qs) := by
  induction h generalizing es fs with
  | nil => exact hes
  | @cons p q _ _ hpq _ ih =>
    obtain ⟨k, x⟩ := p
    obtain ⟨_, v⟩ := q
    obtain ⟨rfl, hx⟩ := hpq
    exact ih (hes.insert hx)

/-- Entries that come to themselves are evaluated to the entries of the map literal. -/
theorem eachEntry (h : Passing m e ps qs) {c : Context} (hp : c.records .trace = true → m.Prints) {n : Machine}
    (hn : c.Alike n m) : ∃ k, Step.eachEntry evaluate c e ps n = some (.ok qs, k) ∧ c.Alike k m := by
  induction h generalizing c n with
  | nil => exact ⟨n, rfl, hn⟩
  | @cons p q ps qs hpq _ ih =>
    obtain ⟨l, x⟩ := p
    obtain ⟨_, v⟩ := q
    obtain ⟨rfl, hx⟩ := hpq
    obtain ⟨n₁, first, hn₁⟩ := hx c hp n hn
    obtain ⟨n₂, rest, hn₂⟩ := ih (c := c.holdValue v) hp hn₁
    exact ⟨n₂, (Run.bind_ok first).trans (Run.bind_ok rest), hn₂⟩

/-- A map of such forms comes to the map of their values. -/
theorem map (h : Passing m e ps qs) : ComesTo m e (.map ps) (.ok (.map qs)) := by
  intro c hp n hn
  obtain ⟨n₁, recorded, hn₁⟩ := Context.record_alike (total_value "evaluate_ast " (.map ps)) fun ht => hn.prints (hp ht)
  obtain ⟨n₂, values, hn₂⟩ := h.eachEntry (c := c.hold e (.map ps)) hp (hn₁.trans hn)
  refine ⟨n₂, ?_, hn₂⟩
  rw [evaluate_settled rfl, Step.expanded_plain (by simp), bind_done]
  exact (Run.bind_ok recorded).trans (Run.bind_ok values)

end Passing

end Entries

/-- A map literal is the map of its items, as `hash-map` makes it. -/
theorem close_eq_ok_iff {xs : List Value} {t : Value} : Reader.close .curly xs = .ok t ↔ Table.hashMap xs = .ok t := by
  simp only [Reader.close]
  cases hx : Entries.ofItems? xs with
  | ok es => simp [Table.hashMap_of_ok hx]
  | error fault => simp [Table.hashMap_of_error hx]

theorem close_eq_error_iff {xs : List Value} {fault : MapError} :
    Reader.close .curly xs = .error (.badMap fault) ↔ Table.hashMap xs = .error (.badMap fault) := by
  simp only [Reader.close]
  cases hx : Entries.ofItems? xs with
  | ok es => simp [Table.hashMap_of_ok hx]
  | error fault => simp [Table.hashMap_of_error hx]

/-- A map literal of forms without any effect comes to the map that `hash-map` makes of its keys and of the values of
these forms. -/
theorem evaluate_literal_map {ctx : Context} {e : FrameId} {m : Machine} {ps qs : Entries}
    (h : Entries.Passing m e ps qs) (hp : ctx.records .trace = true → m.Prints) :
    ∃ t t' n, Reader.close .curly ps.items = .ok t ∧ evaluate ctx e t m = some (.ok t', n) ∧ ctx.Alike n m ∧
      Yields .hashMap qs.items (.ok t') := by
  have written : Reader.close .curly ps.items = .ok (.map (Entries.insertAll [] ps)) :=
    close_eq_ok_iff.2 (Table.hashMap_of_ok (Entries.ofItems?_items ps))
  have values : Entries.Passing m e (Entries.insertAll [] ps) (Entries.insertAll [] qs) := h.insertAll .nil
  obtain ⟨n, evaluated, hn⟩ := values.map ctx hp m (.refl ctx m)
  exact ⟨_, _, n, written, evaluated, hn, Call.yields_hashMap.2 (Table.hashMap_of_ok (Entries.ofItems?_items qs))⟩

/-! ## All of it together -/

section

variable {t : Value} {f : Key → Option Value} {xs ks : List Value}

/-- `assoc` is `hash-map` of all the items, old and new. -/
theorem yields_assoc_iff (h : Yields .hashMap xs (.ok t)) (ys : List Value) (r : Except EvalError Value) :
    Yields .assoc (t :: ys) r ↔ Yields .hashMap (xs ++ ys) r := by
  obtain ⟨es, rfl, hes⟩ := Table.of_hashMap (Call.yields_hashMap.1 h)
  rw [Call.yields_assoc, Call.yields_hashMap, Table.assoc_map]
  have both := Entries.ofItems?_append hes ys
  cases hy : Entries.ofItems? ys with
  | ok fs =>
    rw [hy] at both
    rw [Table.hashMap_of_ok both]
  | error fault =>
    rw [hy] at both
    rw [Table.hashMap_of_error both]

namespace Built

/-- A map built by any sequence of calls shows the function it stands for. -/
theorem shows (h : Built t f) : Shows t f := by
  obtain ⟨es, rfl, hes⟩ := h.represents
  exact hes.shows

/-- What is put over a map is taken as `hash-map` takes it. -/
theorem yields_assoc_error (h : Built t f) (ys : List Value) (fault : EvalError) :
    Yields .assoc (t :: ys) (.error fault) ↔ Yields .hashMap ys (.error fault) := by
  obtain ⟨es, rfl, -⟩ := h.represents
  rw [Call.yields_assoc, Call.yields_hashMap, Table.assoc_map]
  cases hy : Entries.ofItems? ys with
  | ok fs => simp [Table.hashMap_of_ok hy]
  | error fault' => simp [Table.hashMap_of_error hy]

theorem yields_dissoc (h : Built t f) (hk : ∀ x ∈ ks, x.isKey = true) :
    ∃ t', Yields .dissoc (t :: ks) (.ok t') ∧ Shows t' fun k => if some k ∈ ks.map Key.ofValue? then none else f k := by
  obtain ⟨es, rfl, hes⟩ := h.represents
  obtain ⟨ls, rfl⟩ := Table.exists_keys hk
  exact ⟨_, Call.yields_dissoc.2 (Table.dissoc_map es ls), (hes.eraseAll ls).shows⟩

theorem yields_dissoc_error (h : Built t f) (hk : ∃ x ∈ ks, x.isKey = false) :
    Yields .dissoc (t :: ks) (.error (.mismatch .key)) := by
  obtain ⟨es, rfl, -⟩ := h.represents
  exact Call.yields_dissoc.2 (Table.dissoc_of_badKey es hk)

/-- To bind a key leaves every other one as it was. -/
theorem yields_assoc_one (h : Built t f) {k l : Key} (hl : l ≠ k) (v : Value) :
    ∃ t', Yields .assoc [t, k.toValue, v] (.ok t') ∧ Yields .get [t', k.toValue] (.ok v) ∧
      Yields .get [t', l.toValue] (.ok ((f l).getD .nil)) := by
  obtain ⟨es, rfl, hes⟩ := h.represents
  have one : Entries.ofItems? [k.toValue, v] = .ok [(k, v)] := Entries.ofItems?_items [(k, v)]
  have all := (hes.insertAll one).shows
  refine ⟨_, Call.yields_assoc.2 ((Table.assoc_map es _).trans (by rw [one])), ?_, ?_⟩
  · simpa [Entries.lastIn, Key.ofValue?_toValue] using all.get k
  · simpa [Entries.lastIn, Key.ofValue?_toValue, Ne.symm hl] using all.get l

end Built

end

/-- **The builtins on maps implement finite maps.** `hash-map` takes values in turn just when they are even in number
with keys in place, and reports an odd number first; a map literal is taken in the same way and comes to the same map.
`assoc` puts the values in turn over those that a map was made of, and takes them as `hash-map` does. `dissoc` takes
away the keys that are listed, and nothing but keys may be. After any calls of the three, `get`, `contains?`, `keys` and
`vals` all show one finite map: the last value for each key that has been put in since it was last taken away. A text
and a keyword with the same name are two keys. -/
theorem map_builtins_are_finite_maps :
    (∀ xs, (xs.length % 2 = 1 → Yields .hashMap xs (.error (.badMap .missingValue))) ∧
      (xs.length % 2 = 0 → ¬ Entries.KeysInPlace xs → Yields .hashMap xs (.error (.badMap .badKey))) ∧
      (xs.length % 2 = 0 → Entries.KeysInPlace xs → ∃ t, Yields .hashMap xs (.ok t))) ∧
    (∀ xs t, Yields .hashMap xs (.ok t) ↔ Reader.close .curly xs = .ok t) ∧
    (∀ xs fault, Yields .hashMap xs (.error (.badMap fault)) ↔ Reader.close .curly xs = .error (.badMap fault)) ∧
    (∀ (ctx : Context) e m ps qs, Entries.Passing m e ps qs → (ctx.records .trace = true → m.Prints) →
      ∃ t t' n, Reader.close .curly ps.items = .ok t ∧ evaluate ctx e t m = some (.ok t', n) ∧ ctx.Alike n m ∧
        Yields .hashMap qs.items (.ok t')) ∧
    (∀ k xs, (Entries.lastIn k xs = none ↔ ∀ i v, ¬ Entries.StandsAt xs i k v) ∧
      ∀ v, Entries.lastIn k xs = some v ↔
        ∃ i, Entries.StandsAt xs i k v ∧ ∀ j w, Entries.StandsAt xs j k w → j ≤ i) ∧
    (∀ xs t ys r, Yields .hashMap xs (.ok t) → (Yields .assoc (t :: ys) r ↔ Yields .hashMap (xs ++ ys) r)) ∧
    (∀ t f, Built t f → Shows t f ∧
      (∀ ys fault, Yields .assoc (t :: ys) (.error fault) ↔ Yields .hashMap ys (.error fault)) ∧
      (∀ ks, (∃ x ∈ ks, x.isKey = false) → Yields .dissoc (t :: ks) (.error (.mismatch .key))) ∧
      (∀ ks, (∀ x ∈ ks, x.isKey = true) → ∃ t', Yields .dissoc (t :: ks) (.ok t') ∧
        Shows t' fun k => if some k ∈ ks.map Key.ofValue? then none else f k) ∧
      ∀ s v,
        (∃ t', Yields .assoc [t, .keyword s, v] (.ok t') ∧ Yields .get [t', .keyword s] (.ok v) ∧
          Yields .get [t', .text s] (.ok ((f (.text s)).getD .nil))) ∧
        ∃ t', Yields .assoc [t, .text s, v] (.ok t') ∧ Yields .get [t', .text s] (.ok v) ∧
          Yields .get [t', .keyword s] (.ok ((f (.keyword s)).getD .nil))) := by
  refine ⟨fun xs => ⟨fun odd => ?_, fun even hk => ?_, fun even hk => ?_⟩, fun xs t => ?_, fun xs fault => ?_,
    fun ctx e m ps qs h hp => evaluate_literal_map h hp,
    fun k xs => ⟨Entries.lastIn_eq_none_iff, fun v => Entries.lastIn_eq_some_iff⟩,
    fun xs t ys r h => yields_assoc_iff h ys r, fun t f h => ⟨h.shows, h.yields_assoc_error,
      fun ks => h.yields_dissoc_error, fun ks => h.yields_dissoc, fun s v => ⟨?_, ?_⟩⟩⟩
  · exact Call.yields_hashMap.2 (Table.hashMap_of_error (Entries.ofItems?_odd odd))
  · exact Call.yields_hashMap.2 (Table.hashMap_of_error (Entries.ofItems?_badKey even hk))
  · obtain ⟨es, hes⟩ := Entries.ofItems?_ok_iff.2 ⟨even, hk⟩
    exact ⟨.map es, Call.yields_hashMap.2 (Table.hashMap_of_ok hes)⟩
  · rw [Call.yields_hashMap, close_eq_ok_iff]
  · rw [Call.yields_hashMap, close_eq_error_iff]
  · exact h.yields_assoc_one (k := .keyword s) (l := .text s) (fun same => nomatch same) v
  · exact h.yields_assoc_one (k := .text s) (l := .keyword s) (fun same => nomatch same) v

/-- Entries with a key twice, and with a text and a keyword of one name. -/
def mixedEntries : Entries := [(.keyword "a", .int 1), (.text "a", .int 2), (.keyword "a", .int 3)]

def mixedMap : Value := .map [(.keyword "a", .int 3), (.text "a", .int 2)]

/-- The map without the text. -/
def keywordMap : Value := .map [(.keyword "a", .int 3)]

theorem passing_mixedEntries : Entries.Passing .empty 0 mixedEntries mixedEntries := by
  refine List.forall₂_same.2 fun p hp => ⟨rfl, .literal ?_⟩
  simp only [mixedEntries, List.mem_cons, List.not_mem_nil, or_false] at hp
  rcases hp with rfl | rfl | rfl <;> rfl

theorem map_builtins_are_finite_maps_mixed :
    (∃ t t' n, Reader.close .curly mixedEntries.items = .ok t ∧ evaluate firstHeld 0 t .empty = some (.ok t', n) ∧
      firstHeld.Alike n .empty ∧ Yields .hashMap mixedEntries.items (.ok t')) ∧
      Yields .get [mixedMap, .keyword "a"] (.ok (.int 3)) ∧
      Yields .contains [keywordMap, .text "a"] (.ok (.bool false)) ∧
      Yields .get [keywordMap, .text "a"] (.ok .nil) ∧ (∃ t, Yields .hashMap mixedEntries.items (.ok t)) := by
  obtain ⟨outcome, -, -, literal, -, -, built⟩ := map_builtins_are_finite_maps
  have made : Call.builtin firstHeld .hashMap mixedEntries.items .empty = some (.ok mixedMap, .empty) := by rfl
  have taken : Call.builtin firstHeld .dissoc [mixedMap, .text "a"] .empty = some (.ok keywordMap, .empty) := by rfl
  have shown := (built _ _ (.hashMap made)).1
  have left := (built _ _ (.dissoc (.hashMap made) taken)).1
  exact ⟨literal firstHeld 0 .empty _ _ passing_mixedEntries (fun ht => nomatch ht), shown.get (.keyword "a"),
    left.contains (.text "a"), left.get (.text "a"),
    (outcome mixedEntries.items).2.2 rfl (Entries.keysInPlace_items mixedEntries)⟩

end MiniLisp

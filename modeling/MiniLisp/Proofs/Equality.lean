import Mathlib
import MiniLisp.Builtin.Run
import MiniLisp.Proofs.RoundTrip
import MiniLisp.Value.Equality

/-!
# What equality compares

Values without floats are equal just if they become identical once every vector in them is replaced by a list
(`Value.listed`). To be identical is defined constructor by constructor (`Value.Identical`): the entries of maps may
stand in any order, and a closure is what its identity says. Maps are compared by a count and a lookup of each key on
one side only, which is enough because no key is bound twice (`Value.Keyed`, `Entries.matches_iff`).

* `Value.equal_iff`: equality, when it is applied to float-free values.
* `equality_is_identity_up_to_shape`: what the builtin answers, and that it is an equivalence.
-/

namespace MiniLisp

/-! ## Entries with a key each -/

namespace Entries

/-- No key is bound twice. -/
def Distinct (es : Entries) : Prop := es.Pairwise fun a b => a.1 ≠ b.1

variable {es fs : Entries} {k : Key} {v : Value}

/-- Where keys are distinct, an entry is found under its key. -/
theorem find?_of_mem (hd : es.Distinct) (h : (k, v) ∈ es) : es.find? k = some v := by
  induction es with
  | nil => cases h
  | cons e es ih =>
    obtain ⟨l, w⟩ := e
    obtain ⟨others, rest⟩ := List.pairwise_cons.1 hd
    rcases List.mem_cons.1 h with h | h
    · cases h
      simp [find?]
    · have other : l ≠ k := others (k, v) h
      simp [find?, other, ih rest h]

theorem Distinct.map (h : es.Distinct) (f : Value → Value) : Distinct (es.map fun e => (e.1, f e.2)) :=
  List.pairwise_map.2 h

theorem find?_map (f : Value → Value) (k : Key) (es : Entries) :
    Entries.find? k (es.map fun e => (e.1, f e.2)) = (es.find? k).map f := by
  induction es with
  | nil => rfl
  | cons e es ih =>
    obtain ⟨l, w⟩ := e
    by_cases hl : l = k <;> simp [find?, hl, ih]

/-- Entries whose keys are those of others and whose values are related to theirs, in some order. -/
def Matches (R : Value → Value → Prop) (es fs : Entries) : Prop :=
  ∃ gs, List.Forall₂ (fun a b => a.1 = b.1 ∧ R a.2 b.2) es gs ∧ gs.Perm fs

/-- Maps that match have the same keys, in some order. -/
theorem Matches.keys {R : Value → Value → Prop} (h : es.Matches R fs) : (es.map Prod.fst).Perm (fs.map Prod.fst) := by
  obtain ⟨gs, hg, perm⟩ := h
  have same : es.map Prod.fst = gs.map Prod.fst := by
    rw [← List.forall₂_eq_eq_eq, List.forall₂_map_left_iff, List.forall₂_map_right_iff]
    exact hg.imp fun _ _ h => h.1
  rw [same]
  exact perm.map _

/-- **Looking up on one side is enough**, if there are as many entries on the other. -/
theorem matches_iff {R : Value → Value → Prop} (he : es.Distinct) (hf : fs.Distinct) :
    es.Matches R fs ↔ es.length = fs.length ∧ ∀ e ∈ es, ∃ w, fs.find? e.1 = some w ∧ R e.2 w := by
  constructor
  · rintro ⟨gs, hg, perm⟩
    refine ⟨hg.length_eq.trans perm.length_eq, fun e hmem => ?_⟩
    obtain ⟨i, hi, rfl⟩ := List.getElem_of_mem hmem
    have hi' : i < gs.length := hg.length_eq ▸ hi
    obtain ⟨key, related⟩ := hg.get hi hi'
    refine ⟨gs[i].2, find?_of_mem hf (perm.mem_iff.1 ?_), related⟩
    have whole : (es[i].1, gs[i].2) = gs[i] := Prod.ext key rfl
    rw [whole]
    exact List.getElem_mem hi'
  · rintro ⟨length, found⟩
    let gs : Entries := es.map fun e => (e.1, (fs.find? e.1).getD .nil)
    refine ⟨gs, List.forall₂_map_right_iff.2 (List.forall₂_same.2 fun e hmem => ?_), ?_⟩
    · obtain ⟨w, hw, related⟩ := found e hmem
      exact ⟨rfl, by simpa [hw] using related⟩
    · have inside : gs ⊆ fs := by
        intro g hg
        obtain ⟨e, hmem, rfl⟩ := List.mem_map.1 hg
        obtain ⟨w, hw, -⟩ := found e hmem
        simpa [hw] using mem_of_find? hw
      have keys : gs.Distinct := List.pairwise_map.2 he
      have nodup : gs.Nodup := keys.imp fun h heq => h (congrArg Prod.fst heq)
      exact (List.subperm_of_subset nodup inside).perm_of_length_le (by simp [gs, length])

end Entries

namespace Value

/-! ## Identity up to shape -/

mutual

/-- The value with every vector in it replaced by a list. -/
def listed : Value → Value
  | list xs | vector xs => list (listedItems xs)
  | map es => map (listedEntries es)
  | v => v

def listedItems : List Value → List Value
  | [] => []
  | x :: xs => listed x :: listedItems xs

def listedEntries : List (Key × Value) → Entries
  | [] => []
  | (k, x) :: es => (k, listed x) :: listedEntries es

end

/-- Whether a value is neither a number with a point nor made of others. -/
def isSimple : Value → Bool
  | list _ | vector _ | map _ | closure .. | float _ => false
  | _ => true

mutual

/-- Values that are the same: simple ones if nothing tells them apart, so atoms and rooted builtins by what they name;
closures by their identity; maps by their entries in any order. -/
inductive Identical : Value → Value → Prop
  | simple {v : Value} (h : v.isSimple = true) : Identical v v
  | closure (id : ClosureId) (params params' : Params) (body body' : Value) (captured captured' : FrameId)
      (isMacro isMacro' : Bool) :
      Identical (.closure id params body captured isMacro) (.closure id params' body' captured' isMacro')
  | list {xs ys : List Value} (h : IdenticalItems xs ys) : Identical (.list xs) (.list ys)
  | vector {xs ys : List Value} (h : IdenticalItems xs ys) : Identical (.vector xs) (.vector ys)
  | map {es gs fs : Entries} (h : IdenticalEntries es gs) (perm : gs.Perm fs) : Identical (.map es) (.map fs)

inductive IdenticalItems : List Value → List Value → Prop
  | nil : IdenticalItems [] []
  | cons {x y : Value} {xs ys : List Value} (h : Identical x y) (hs : IdenticalItems xs ys) :
      IdenticalItems (x :: xs) (y :: ys)

inductive IdenticalEntries : Entries → Entries → Prop
  | nil : IdenticalEntries [] []
  | cons {k : Key} {x y : Value} {es gs : Entries} (h : Identical x y) (hs : IdenticalEntries es gs) :
      IdenticalEntries ((k, x) :: es) ((k, y) :: gs)

end

/-- A value with no float inside, and with no map inside that binds a key twice. -/
inductive FloatFree : Value → Prop
  | simple {v : Value} (h : v.isSimple = true) : FloatFree v
  | closure (id : ClosureId) (params : Params) (body : Value) (captured : FrameId) (isMacro : Bool) :
      FloatFree (.closure id params body captured isMacro)
  | list {xs : List Value} (h : ∀ x ∈ xs, FloatFree x) : FloatFree (.list xs)
  | vector {xs : List Value} (h : ∀ x ∈ xs, FloatFree x) : FloatFree (.vector xs)
  | map {es : Entries} (distinct : es.Distinct) (h : ∀ e ∈ es, FloatFree e.2) : FloatFree (.map es)

variable {x y z : Value} {xs ys : List Value} {es fs gs : Entries}

/-- Items are listed one by one. -/
theorem listedItems_eq (xs : List Value) : listedItems xs = xs.map listed := by
  induction xs with
  | nil => rfl
  | cons x xs ih => rw [listedItems, ih, List.map_cons]

theorem listedEntries_eq (es : Entries) : listedEntries es = es.map fun e => (e.1, e.2.listed) := by
  induction es with
  | nil => rfl
  | cons e es ih => rw [listedEntries, ih, List.map_cons]

/-- A simple value has no shape to forget. -/
theorem listed_simple (h : x.isSimple = true) : x.listed = x := by
  cases x <;> first | rfl | cases h

theorem items?_simple (h : x.isSimple = true) : x.items? = none := by
  cases x <;> first | rfl | cases h

/-- Identical items are identical in pairs. -/
theorem identicalItems_iff : IdenticalItems xs ys ↔ List.Forall₂ Identical xs ys := by
  constructor
  · intro h
    induction xs generalizing ys with
    | nil => cases h; exact .nil
    | cons x xs ih => cases h with | cons h hs => exact .cons h (ih hs)
  · intro h
    induction h with
    | nil => exact .nil
    | cons h _ ih => exact .cons h ih

theorem identicalEntries_iff :
    IdenticalEntries es gs ↔ List.Forall₂ (fun a b => a.1 = b.1 ∧ Identical a.2 b.2) es gs := by
  constructor
  · intro h
    induction es generalizing gs with
    | nil => cases h; exact .nil
    | cons e es ih => cases h with | cons h hs => exact .cons ⟨rfl, h⟩ (ih hs)
  · intro h
    induction h with
    | nil => exact .nil
    | @cons a b _ _ h _ ih =>
      obtain ⟨k, x⟩ := a
      obtain ⟨l, y⟩ := b
      obtain ⟨rfl, h⟩ := h
      exact .cons h ih

/-- Maps are identical when their entries match, in whatever order they stand. -/
theorem identical_map_iff : Identical (.map es) (.map fs) ↔ es.Matches Identical fs := by
  constructor
  · intro h
    cases h with
    | simple h => cases h
    | map h perm => exact ⟨_, identicalEntries_iff.1 h, perm⟩
  · rintro ⟨gs, h, perm⟩
    exact .map (identicalEntries_iff.2 h) perm

theorem identical_list_iff : Identical (.list xs) (.list ys) ↔ List.Forall₂ Identical xs ys := by
  constructor
  · intro h
    cases h with
    | simple h => cases h
    | list h => exact identicalItems_iff.1 h
  · exact fun h => .list (identicalItems_iff.2 h)

/-! ### It is an equivalence -/

mutual

/-- Identity is symmetric. At a map the matching permutation is turned around. -/
theorem Identical.symm : ∀ {x y : Value}, Identical x y → Identical y x
  | _, _, .simple h => .simple h
  | _, _, .closure .. => .closure ..
  | _, _, .list h => .list h.symm
  | _, _, .vector h => .vector h.symm
  | _, _, .map h perm => by
    -- the entries on the right, in the order that matches those on the left
    obtain ⟨hs, matched, perm'⟩ := List.perm_comp_forall₂ perm.symm (identicalEntries_iff.1 h.symm)
    exact .map (identicalEntries_iff.2 matched) perm'

theorem IdenticalItems.symm : ∀ {xs ys : List Value}, IdenticalItems xs ys → IdenticalItems ys xs
  | _, _, .nil => .nil
  | _, _, .cons h hs => .cons h.symm hs.symm

theorem IdenticalEntries.symm : ∀ {es gs : Entries}, IdenticalEntries es gs → IdenticalEntries gs es
  | _, _, .nil => .nil
  | _, _, .cons h hs => .cons h.symm hs.symm

end

mutual

/-- Identity is transitive. At maps the second permutation is pulled back along the first. -/
theorem Identical.trans : ∀ {x y z : Value}, Identical x y → Identical y z → Identical x z
  | _, _, _, .simple _, h' => h'
  | _, _, _, .closure .., h' => by
    cases h' with
    | simple h => cases h
    | closure => exact .closure ..
  | _, _, _, .list h, h' => by
    cases h' with
    | simple h => cases h
    | list h' => exact .list (h.trans h')
  | _, _, _, .vector h, h' => by
    cases h' with
    | simple h => cases h
    | vector h' => exact .vector (h.trans h')
  | _, _, _, .map h perm, h' => by
    cases h' with
    | simple h => cases h
    | map h' perm' =>
      obtain ⟨ws, matched, perm''⟩ := List.perm_comp_forall₂ perm (identicalEntries_iff.1 h')
      exact .map (h.trans (identicalEntries_iff.2 matched)) (perm''.trans perm')

theorem IdenticalItems.trans :
    ∀ {xs ys zs : List Value}, IdenticalItems xs ys → IdenticalItems ys zs → IdenticalItems xs zs
  | _, _, _, .nil, .nil => .nil
  | _, _, _, .cons h hs, .cons h' hs' => .cons (h.trans h') (hs.trans hs')

theorem IdenticalEntries.trans :
    ∀ {es fs gs : Entries}, IdenticalEntries es fs → IdenticalEntries fs gs → IdenticalEntries es gs
  | _, _, _, .nil, .nil => .nil
  | _, _, _, .cons h hs, .cons h' hs' => .cons (h.trans h') (hs.trans hs')

end

/-! ## What equality does -/

/-- Items are equal in pairs, and there are as many on both sides. -/
theorem equalItems_iff : equalItems xs ys = true ↔ List.Forall₂ (fun x y => x.equal y = true) xs ys := by
  induction xs generalizing ys with
  | nil => cases ys <;> simp [equalItems]
  | cons x xs ih => cases ys <;> simp [equalItems, ih]

/-- The map arm of `equal` asks for every entry of the one map whether the other has an equal value under its key. -/
theorem equalEntries_iff :
    equalEntries es fs = true ↔ ∀ e ∈ es, ∃ y, fs.find? e.1 = some y ∧ e.2.equal y = true := by
  induction es with
  | nil => simp [equalEntries]
  | cons e es ih =>
    obtain ⟨k, x⟩ := e
    cases hk : fs.find? k <;> simp [equalEntries, ih, hk]

/-! ### By kinds -/

section

variable {id : ClosureId} {params : Params} {body : Value} {captured : FrameId} {isMacro : Bool}

/-- Closures are equal when they are the same closure; parameters and body are not compared. -/
theorem equal_closure_iff : (closure id params body captured isMacro).equal y = true ↔
    ∃ params' body' captured' isMacro', y = .closure id params' body' captured' isMacro' := by
  cases y with
  | closure id' => simpa [equal] using eq_comm
  | _ => simp [equal]

theorem identical_closure_iff : Identical (.closure id params body captured isMacro) y.listed ↔
    ∃ params' body' captured' isMacro', y = .closure id params' body' captured' isMacro' := by
  constructor
  · intro h
    cases y <;> cases h <;> exact ⟨_, _, _, _, rfl⟩
  · rintro ⟨_, _, _, _, rfl⟩
    exact .closure ..

end

theorem equal_list_iff : (list xs).equal y = true ↔ ∃ ys, y.items? = some ys ∧ equalItems xs ys = true := by
  cases y <;> simp [equal, items?]

/-- `equal` sees no difference between a vector and a list. -/
theorem equal_vector (xs : List Value) (y : Value) : (vector xs).equal y = (list xs).equal y := by
  cases y <;> simp [equal]

/-- A list is identical to what is listed when that was a sequence with identical items. -/
theorem identical_listed_iff :
    Identical (.list xs) y.listed ↔ ∃ ys, y.items? = some ys ∧ Identical (.list xs) (.list (ys.map listed)) := by
  cases y with
  | list ys | vector ys => simp [listed, items?, listedItems_eq]
  | _ =>
    simp only [listed, items?, reduceCtorEq, false_and, exists_false, iff_false]
    intro h
    cases h

theorem equal_map_iff : (map es).equal y = true ↔
    ∃ fs, y = .map fs ∧ es.length = fs.length ∧ equalEntries es fs = true := by
  cases y <;> simp [equal]

/-- A map is identical to what is listed when that was a map whose listed entries match. -/
theorem identical_mapped_iff : Identical (.map es) y.listed ↔
    ∃ fs : Entries, y = .map fs ∧ es.Matches Identical (fs.map fun e => (e.1, e.2.listed)) := by
  cases y with
  | map fs => simp [listed, listedEntries_eq, identical_map_iff]
  | _ =>
    simp only [listed, reduceCtorEq, false_and, exists_false, iff_false]
    intro h
    cases h

/-- Nothing counts as equal to a simple value but itself, and a double for an integer. -/
theorem equal_simple_iff (h : x.isSimple = true) (hy : y.FloatFree) : x.equal y = true ↔ x = y := by
  have noFloat (f : Float) : y ≠ .float f := by
    rintro rfl
    cases hy with | simple h => cases h
  cases x <;> cases h <;> cases y <;> simp_all [equal, Number.equal, Number.compare]

/-- A simple value is identical to itself only. -/
theorem identical_simple_iff (h : x.isSimple = true) : Identical x y.listed ↔ x = y := by
  constructor
  · intro hi
    cases y <;> cases hi <;> first | rfl | cases h
  · rintro rfl
    rw [listed_simple h]
    exact .simple h

/-! ### At any depth -/

section

variable (hx : ∀ x ∈ xs, ∀ y : Value, y.FloatFree → (x.equal y = true ↔ Identical x.listed y.listed))
include hx

/-- The comparison of elements, if that of each is identity up to shape. -/
theorem equalItems_iff_identical (hy : ∀ y ∈ ys, y.FloatFree) :
    equalItems xs ys = true ↔ Identical (.list (xs.map listed)) (.list (ys.map listed)) := by
  rw [equalItems_iff, identical_list_iff, List.forall₂_map_left_iff, List.forall₂_map_right_iff]
  induction xs generalizing ys with
  | nil => cases ys <;> simp
  | cons x xs ih =>
    cases ys with
    | nil => simp
    | cons y ys =>
      obtain ⟨first, rest⟩ := List.forall_mem_cons.1 hy
      have head := hx x List.mem_cons_self y first
      have tail := ih (fun x hmem => hx x (List.mem_cons_of_mem _ hmem)) rest
      rw [List.forall₂_cons, List.forall₂_cons, head, tail]

/-- A sequence is compared with sequences of either kind. -/
theorem equal_list_iff_identical (hy : y.FloatFree) :
    (list xs).equal y = true ↔ Identical (.list (xs.map listed)) y.listed := by
  have elements {ys : List Value} (hi : y.items? = some ys) : ∀ z ∈ ys, z.FloatFree := by
    cases hy with
    | list h | vector h => cases hi; exact h
    | simple h => rw [items?_simple h] at hi; cases hi
    | _ => cases hi
  rw [equal_list_iff, identical_listed_iff]
  exact exists_congr fun ys => and_congr_right fun hi => equalItems_iff_identical hx (elements hi)

end

/-- The comparison of maps, if that of each value in them is identity up to shape. -/
theorem equal_map_iff_identical (he : es.Distinct)
    (hx : ∀ e ∈ es, ∀ y : Value, y.FloatFree → (e.2.equal y = true ↔ Identical e.2.listed y.listed))
    (hy : y.FloatFree) :
    (map es).equal y = true ↔ Identical (.map (listedEntries es)) y.listed := by
  rw [equal_map_iff, identical_mapped_iff, listedEntries_eq]
  refine exists_congr fun fs => and_congr_right fun hm => ?_
  subst hm
  obtain ⟨distinct, values⟩ : Entries.Distinct fs ∧ ∀ e ∈ fs, e.2.FloatFree := by
    cases hy with
    | simple h => cases h
    | map distinct h => exact ⟨distinct, h⟩
  rw [Entries.matches_iff (he.map listed) (distinct.map listed), List.length_map, List.length_map, equalEntries_iff,
    List.forall_mem_map]
  refine and_congr_right fun _ => forall₂_congr fun e hmem => ?_
  simp only [Entries.find?_map, Option.map_eq_some_iff]
  constructor
  · rintro ⟨w, hw, same⟩
    exact ⟨w.listed, ⟨w, hw, rfl⟩, (hx e hmem w (values _ (Entries.mem_of_find? hw))).1 same⟩
  · rintro ⟨_, ⟨w, hw, rfl⟩, same⟩
    exact ⟨w, hw, (hx e hmem w (values _ (Entries.mem_of_find? hw))).2 same⟩

/-- **Equality is identity up to shape**, where no float takes part. -/
theorem equal_iff (hx : x.FloatFree) (hy : y.FloatFree) : x.equal y = true ↔ Identical x.listed y.listed := by
  induction hx generalizing y with
  | simple h => rw [equal_simple_iff h hy, listed_simple h, identical_simple_iff h]
  | closure => exact equal_closure_iff.trans identical_closure_iff.symm
  | list h ih =>
    rw [listed, listedItems_eq]
    exact equal_list_iff_identical (fun x hmem y => ih x hmem) hy
  | vector h ih =>
    rw [equal_vector, listed, listedItems_eq]
    exact equal_list_iff_identical (fun x hmem y => ih x hmem) hy
  | map distinct h ih => exact equal_map_iff_identical distinct (fun e hmem y => ih e hmem) hy

/-- Without floats every value is identical to itself; a float that is no number would not be. -/
theorem FloatFree.identical_listed (hx : x.FloatFree) : Identical x.listed x.listed := by
  induction hx with
  | simple h => rw [listed_simple h]; exact .simple h
  | closure => exact .closure ..
  | list h ih | vector h ih =>
    rw [listed, listedItems_eq, identical_list_iff, List.forall₂_same, List.forall_mem_map]
    exact ih
  | map distinct h ih =>
    rw [listed, listedEntries_eq, identical_map_iff]
    exact ⟨_, List.forall₂_same.2 (List.forall_mem_map.2 fun e hmem => ⟨rfl, ih e hmem⟩), .refl _⟩

/-- Equal maps bind the same keys. -/
theorem keys_of_equal (he : es.Distinct) (hf : fs.Distinct) (h : (map es).equal (map fs) = true) :
    (es.map Prod.fst).Perm (fs.map Prod.fst) := by
  obtain ⟨_, ⟨⟩, length, entries⟩ := equal_map_iff.1 h
  exact ((Entries.matches_iff (R := fun x y => x.equal y = true) he hf).2 ⟨length, equalEntries_iff.1 entries⟩).keys

end Value

open Value (FloatFree Identical)

/-- **Equality is identity up to list and vector shape** for float-free values. Replace every vector in both of them by
a list: the builtin answers true just if the two become identical, with closures and atoms by their identity, builtins
by which they are, rooted ones by their root as well, and the entries of maps in any order. So it is an equivalence on
these values, which tells texts from keywords, as values and as keys. -/
theorem equality_is_identity_up_to_shape :
    (∀ x y : Value, x.FloatFree → y.FloatFree →
      (∀ ctx m, Builtin.equal.run ctx [x, y] m = some (.ok (.bool (x.equal y)), m)) ∧
        (x.equal y = true ↔ Identical x.listed y.listed)) ∧
    (∀ x : Value, x.FloatFree → x.equal x = true) ∧
    (∀ x y : Value, x.FloatFree → y.FloatFree → x.equal y = true → y.equal x = true) ∧
    (∀ x y z : Value, x.FloatFree → y.FloatFree → z.FloatFree → x.equal y = true → y.equal z = true →
      x.equal z = true) ∧
    (∀ s t : String, (Value.text s).equal (.keyword t) = false ∧ (Value.keyword t).equal (.text s) = false) ∧
    ∀ es fs : Entries, (Value.map es).FloatFree → (Value.map fs).FloatFree →
      (Value.map es).equal (.map fs) = true → (es.map Prod.fst).Perm (fs.map Prod.fst) := by
  have distinct {es : Entries} (h : (Value.map es).FloatFree) : es.Distinct := by
    cases h with
    | simple h => cases h
    | map distinct _ => exact distinct
  refine ⟨fun x y hx hy => ⟨fun ctx m => rfl, Value.equal_iff hx hy⟩, fun x hx => ?_, fun x y hx hy h => ?_,
    fun x y z hx hy hz h h' => ?_, fun s t => ⟨by simp [Value.equal], by simp [Value.equal]⟩,
    fun es fs he hf h => Value.keys_of_equal (distinct he) (distinct hf) h⟩
  · exact (Value.equal_iff hx hx).2 hx.identical_listed
  · exact (Value.equal_iff hy hx).2 ((Value.equal_iff hx hy).1 h).symm
  · exact (Value.equal_iff hx hz).2 (((Value.equal_iff hx hy).1 h).trans ((Value.equal_iff hy hz).1 h'))

/-- A list and a vector with a map in them, the entries of which stand in different orders. -/
def shapes : Value := .list [.int 1, .map [(.keyword "a", .vector [.nil, .atom 2]), (.text "a", .list [])]]

def otherShapes : Value := .vector [.int 1, .map [(.text "a", .vector []), (.keyword "a", .list [.nil, .atom 2])]]

theorem equality_is_identity_up_to_shape_nested :
    (∀ ctx m, Builtin.equal.run ctx [shapes, otherShapes] m = some (.ok (.bool true), m)) ∧
      Identical shapes.listed otherShapes.listed ∧ otherShapes.equal shapes = true := by
  have two {x y : Value} (hx : x.FloatFree) (hy : y.FloatFree) : ∀ z ∈ [x, y], z.FloatFree := by
    simpa using ⟨hx, hy⟩
  have entries {k l : Key} {x y : Value} (hkl : k ≠ l) (hx : x.FloatFree) (hy : y.FloatFree) :
      (Value.map [(k, x), (l, y)]).FloatFree := .map (List.pairwise_pair.2 hkl) (by simpa using ⟨hx, hy⟩)
  have shapesFree : shapes.FloatFree :=
    .list (two (.simple rfl) (entries (by decide) (.vector (two (.simple rfl) (.simple rfl))) (.list (by simp))))
  have otherFree : otherShapes.FloatFree :=
    .vector (two (.simple rfl) (entries (by decide) (.vector (by simp)) (.list (two (.simple rfl) (.simple rfl)))))
  have answer : shapes.equal otherShapes = true := by decide
  obtain ⟨characterized, -, symm, -⟩ := equality_is_identity_up_to_shape
  obtain ⟨run, identical⟩ := characterized shapes otherShapes shapesFree otherFree
  refine ⟨fun ctx m => ?_, identical.1 answer, symm _ _ shapesFree otherFree answer⟩
  rw [run ctx m, answer]

end MiniLisp

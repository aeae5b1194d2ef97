import Mathlib
import MiniLisp.Eval.Evaluate
import MiniLisp.Proofs.Equivariance
import MiniLisp.Proofs.Parameters
import MiniLisp.Proofs.Template

/-!
# Conditions that pass on to what is made of values

A condition on values is hereditary if it holds of all data, and of a list, a vector or a map exactly if it holds of
what is in it. Whatever builtins and special forms make of values without a look at the machine satisfies such a
condition if the values do.

* `Hereditary`: such conditions (`Hereditary.and`).
* `IfValue`: outcomes that satisfy a condition if they are values.
* `Hereditary.assoc`, `Hereditary.template` and the others: what is made of values, one operation after another.
-/

namespace MiniLisp

/-- A condition that holds of all data, and of a list, a vector or a map exactly if it holds of what is in it. -/
structure Hereditary (V : Value → Prop) : Prop where
  data {v : Value} (h : v.IsData) : V v
  list {xs : List Value} : V (.list xs) ↔ ∀ x ∈ xs, V x
  vector {xs : List Value} : V (.vector xs) ↔ ∀ x ∈ xs, V x
  map {es : Entries} : V (.map es) ↔ ∀ p ∈ es, V p.2

/-- An outcome that satisfies a condition if it is no failure. -/
def IfValue {ε α : Type} (P : α → Prop) (r : Except ε α) : Prop := ∀ a, r = .ok a → P a

namespace IfValue

variable {ε α β : Type} {P : α → Prop} {Q : β → Prop} {r : Except ε α} {g : α → β}

theorem ok {a : α} (h : P a) : IfValue (ε := ε) P (.ok a) := fun b hb => by cases hb; exact h

theorem error (fault : ε) : IfValue P (.error fault) := fun _ h => nomatch h

/-- A step after the outcome is checked at the outcome. -/
theorem map (h : IfValue P r) (hg : ∀ a, P a → Q (g a)) : IfValue Q (r.map g) := by
  intro b hb
  cases r with
  | error fault => cases hb
  | ok a =>
    cases hb
    exact hg a (h a rfl)

/-- What is made of any value satisfies the condition. -/
theorem map_any (h : ∀ a, Q (g a)) : IfValue Q (r.map g) :=
  map (P := fun _ => True) (fun _ _ => trivial) fun a _ => h a

end IfValue

namespace Hereditary

variable {V W : Value → Prop}

/-- Two conditions at once. -/
theorem and (hV : Hereditary V) (hW : Hereditary W) : Hereditary fun v => V v ∧ W v where
  data h := ⟨hV.data h, hW.data h⟩
  list {_} := by simp only [hV.list, hW.list, forall_and]
  vector {_} := by simp only [hV.vector, hW.vector, forall_and]
  map {_} := by simp only [hV.map, hW.map, forall_and]

theorem head {v : Value} {xs : List Value} (h : ∀ w ∈ v :: xs, V w) : V v := h v List.mem_cons_self

theorem tail {v : Value} {xs : List Value} (h : ∀ w ∈ v :: xs, V w) : ∀ w ∈ xs, V w :=
  fun w hw => h w (List.mem_cons_of_mem _ hw)

section

variable (hV : Hereditary V) {v x s m : Value} {xs args : List Value}
include hV

theorem nil : V .nil := hV.data .nil

theorem symbol (name : String) : V (.symbol name) := hV.data (.symbol name)

/-- A quoted value is a list of it and a symbol. -/
theorem quoted (h : V v) : V v.quoted := hV.list.2 (by simp [hV.symbol, h])

theorem items? (h : V v) (hx : v.items? = some xs) : ∀ x ∈ xs, V x := by
  cases v <;> cases hx
  · exact hV.list.1 h
  · exact hV.vector.1 h

/-! ## Numbers and names -/

/-- The number types are data. -/
theorem number (x : Number) : V x.toValue := by
  cases x with
  | int n => exact hV.data (.int n)
  | float x => exact hV.data (.float x)

theorem bool (b : Bool) : V (.bool b) := hV.data (.bool b)

theorem difference (args : List Value) : IfValue V (Arithmetic.difference args) := by
  refine .map_any fun xs => ?_
  split
  · exact hV.data (.int 0)
  · exact hV.number _
  · exact hV.number _

theorem quotient (args : List Value) : IfValue V (Arithmetic.quotient args) := by
  unfold Arithmetic.quotient
  split
  · exact .error _
  · exact .ok (hV.data (.int 1))
  · exact .map_any hV.number
  · exact .map_any hV.number

theorem comparison (holds : Number → Number → Bool) (x y : Value) :
    IfValue V (Arithmetic.comparison holds x y) := by
  unfold Arithmetic.comparison
  split
  · exact .ok (hV.bool _)
  · exact .error _
  · exact .error _

/-- What `read-string` reads is data, which has the property always. -/
theorem readString (v : Value) : IfValue V (Convert.readString v) := by
  unfold Convert.readString
  split
  · exact .error _
  · split
    · next hf => exact .ok (hV.data (Value.isData_of_read? hf))
    · exact .ok hV.nil
    · exact .error _

theorem keyword (v : Value) : IfValue V (Convert.keyword v) := by
  unfold Convert.keyword
  split
  · exact .ok (hV.data (.keyword _))
  · exact .ok (hV.data (.keyword _))
  · exact .error _

/-! ## Sequences -/

theorem strict (h : V s) : IfValue (fun xs => ∀ x ∈ xs, V x) (Sequence.strict s) := by
  unfold Sequence.strict
  split
  · next hi => exact .ok (hV.items? h hi)
  · exact .error _

/-- What a sequence builtin takes for elements are parts of its argument. -/
theorem elements (h : V s) : IfValue (fun xs => ∀ x ∈ xs, V x) (Sequence.elements s) := by
  unfold Sequence.elements
  split
  · exact .ok (List.forall_mem_nil V)
  · exact hV.strict h

theorem vec (h : V s) : IfValue V (Sequence.vec s) := (hV.elements h).map fun _ => hV.vector.2

theorem cons (hx : V x) (h : V s) : IfValue V (Sequence.cons x s) :=
  (hV.elements h).map fun _ hxs => hV.list.2 (List.forall_mem_cons.2 ⟨hx, hxs⟩)

/-- `concat` puts the elements of its arguments into one list. -/
theorem concat (h : ∀ v ∈ args, V v) : IfValue V (Sequence.concat args) := by
  have parts : IfValue (fun xss => ∀ xs ∈ xss, ∀ x ∈ xs, V x) (args.mapM Sequence.elements) := by
    induction args with
    | nil => exact .ok (List.forall_mem_nil _)
    | cons a args ih =>
      rw [mapM_cons_except]
      have first := hV.elements (head h)
      cases ha : Sequence.elements a with
      | error fault => exact .error fault
      | ok xs => exact (ih (tail h)).map fun _ hxss => List.forall_mem_cons.2 ⟨first xs ha, hxss⟩
  refine parts.map fun xss hxss => hV.list.2 fun x hx => ?_
  obtain ⟨xs, hxs, hx⟩ := List.mem_flatten.1 hx
  exact hxss xs hxs x hx

theorem first (h : V s) : IfValue V (Sequence.first s) := by
  refine (hV.elements h).map fun xs hxs => ?_
  cases xs with
  | nil => exact hV.nil
  | cons x xs => exact head hxs

theorem rest (h : V s) : IfValue V (Sequence.rest s) :=
  (hV.elements h).map fun _ hxs => hV.list.2 fun x hx => hxs x (List.mem_of_mem_tail hx)

/-- `nth` gives an element of its argument. -/
theorem nth (h : V s) (i : Value) : IfValue V (Sequence.nth s i) := by
  unfold Sequence.nth
  split
  · exact .error _
  · next xs hx =>
    split
    · split
      · next found =>
        split at found
        · cases found
        · exact .ok (hV.strict h _ hx _ (List.mem_of_getElem? found))
      · exact .error _
    · exact .error _

/-! ## Maps -/

theorem entries (h : V m) : IfValue (fun es => ∀ p ∈ es, V p.2) (Table.entries m) := by
  unfold Table.entries
  split
  · exact .ok (hV.map.1 h)
  · exact .error _

omit hV in
/-- Entries to be added have the last arguments for values. -/
theorem additions (h : ∀ v ∈ args, V v) : IfValue (fun es => ∀ p ∈ es, V p.2) (Table.additions args) := by
  unfold Table.additions
  split
  · next spelled => exact .ok fun p hp => h _ ((Entries.of_ofItems? spelled).2 p hp).2
  · exact .error _

theorem hashMap (h : ∀ v ∈ args, V v) : IfValue V (Table.hashMap args) := (additions h).map fun _ => hV.map.2

/-- `assoc` has the entries of its map and its additions. -/
theorem assoc (h : V m) (hs : ∀ v ∈ args, V v) : IfValue V (Table.assoc m args) := by
  unfold Table.assoc
  split
  · exact .error _
  · next es he =>
    refine (additions hs).map fun more hmore => hV.map.2 fun p hp => ?_
    rcases Entries.mem_insertAll hp with hp | hp
    · exact hmore p hp
    · exact hV.entries h es he p hp

theorem dissoc (h : V m) (args : List Value) : IfValue V (Table.dissoc m args) := by
  have erased (ks : List Key) (es : Entries) (hes : ∀ p ∈ es, V p.2) :
      ∀ p ∈ ks.foldl (fun acc k => Entries.erase k acc) es, V p.2 := by
    induction ks generalizing es with
    | nil => exact hes
    | cons k ks ih => exact ih _ fun p hp => hes p (List.mem_of_mem_filter hp)
  unfold Table.dissoc
  split
  · exact .error _
  · next es he => exact .map_any fun ks => hV.map.2 (erased ks es (hV.entries h es he))

/-- `get` gives a value of the map, or `nil`. -/
theorem get (h : V m) (k : Value) : IfValue V (Table.get m k) := by
  have found {es : Entries} (hes : ∀ p ∈ es, V p.2) (k : Key) : V ((es.find? k).getD .nil) := by
    cases hf : es.find? k with
    | none => exact hV.nil
    | some v => exact hes _ (Entries.mem_of_find? hf)
  unfold Table.get
  split
  · exact .ok hV.nil
  · split
    · exact .error _
    · next es he => exact .map_any (found (hV.entries h es he))

theorem contains (m k : Value) : IfValue V (Table.contains m k) := by
  unfold Table.contains
  split
  · exact .error _
  · exact .map_any fun _ => hV.bool _

theorem keys (m : Value) : IfValue V (Table.keys m) := by
  refine .map_any fun es => hV.list.2 fun x hx => ?_
  obtain ⟨p, -, rfl⟩ := List.mem_map.1 hx
  cases p.1 <;> exact hV.data (by constructor)

/-- `vals` lists the values of the map. -/
theorem vals (h : V m) : IfValue V (Table.vals m) := by
  refine (hV.entries h).map fun es hes => hV.list.2 fun x hx => ?_
  obtain ⟨p, hp, rfl⟩ := List.mem_map.1 hx
  exact hes p hp

end

/-! ## Special forms -/

mutual

/-- The form that fills a template is made of the template's parts, of symbols and of lists, so it has the property
when the template has it. The recursion is that of the template. -/
theorem value_template (hV : Hereditary V) : ∀ {v form : Value}, V v → v.template = .ok form → V form
  | .list items, form, h, ht => by
    have items := hV.list.1 h
    rcases Value.template_list ht with rfl | ⟨-, hi⟩
    · exact items form (by simp)
    · exact value_templateItems hV items hi
  | .vector items, form, h, ht => by
    obtain ⟨rest, hi, rfl⟩ := Value.template_vector ht
    have rebuilt := value_templateItems hV (hV.vector.1 h) hi
    exact hV.list.2 (by simp [hV.symbol, rebuilt])
  | .symbol name, form, _, ht => by
    cases ht
    exact hV.quoted (hV.symbol name)
  | .map es, form, h, ht => by
    cases ht
    exact hV.quoted h
  | .nil, form, h, ht | .bool _, form, h, ht | .int _, form, h, ht | .float _, form, h, ht | .text _, form, h, ht
  | .keyword _, form, h, ht | .builtin _, form, h, ht | .rooted _ _, form, h, ht
  | .closure _ _ _ _ _, form, h, ht | .atom _, form, h, ht => by
    cases ht
    exact h

/-- The same for the items of a list in a template. -/
theorem value_templateItems (hV : Hereditary V) : ∀ {xs : List Value} {form : Value}, (∀ x ∈ xs, V x) →
    Value.templateItems xs = .ok form → V form
  | [], form, _, ht => by
    cases ht
    exact hV.list.2 fun x hx => nomatch hx
  | x :: xs, form, h, ht => by
    obtain ⟨first, others⟩ := List.forall_mem_cons.1 h
    obtain ⟨rest, hxs, ⟨y, rfl, rfl⟩ | ⟨-, made, hx, rfl⟩⟩ := Value.templateItems_cons ht
    · have rebuilt := value_templateItems hV others hxs
      exact hV.list.2 (by simp [hV.symbol, rebuilt, hV.list.1 first y (by simp)])
    · have rebuilt := value_templateItems hV others hxs
      exact hV.list.2 (by simp [hV.symbol, rebuilt, value_template hV first hx])

end

section

variable (hV : Hereditary V) {args : List Value}
include hV

theorem template {v : Value} (h : V v) : IfValue V (Step.template v) := by
  unfold Step.template
  split
  · next ht => exact .ok (value_template hV h ht)
  · exact .error _

/-- The items of the bindings of a `let*` are parts of them. -/
theorem bindingItems {bindings : Value} (h : V bindings) :
    IfValue (fun xs => ∀ x ∈ xs, V x) (Step.bindingItems bindings) := by
  unfold Step.bindingItems
  split
  · exact .error _
  · next hx =>
    split
    · exact .ok (hV.items? h hx)
    · exact .error _

/-- The form that `swap!` evaluates is made of its arguments, each of them quoted. -/
theorem swapForm {cell f current : Value} (hc : V cell) (hf : V f) (hv : V current) (ha : ∀ v ∈ args, V v) :
    V (Call.swapForm cell f current args) := by
  have quoted : ∀ v ∈ args.map Value.quoted, V v := by
    intro v hm
    obtain ⟨w, hw, rfl⟩ := List.mem_map.1 hm
    exact hV.quoted (ha w hw)
  have applied : V (.list (f :: current.quoted :: args.map Value.quoted)) :=
    hV.list.2 (List.forall_mem_cons.2 ⟨hf, List.forall_mem_cons.2 ⟨hV.quoted hv, quoted⟩⟩)
  exact hV.list.2 (by simp [hV.symbol, hc, applied])

/-- The parameters of a closure are bound to the arguments, the last one perhaps to a list of them. -/
theorem bindings (p : Params) (h : ∀ v ∈ args, V v) : ∀ b ∈ p.bindings args, V b.2 := by
  have positional : ∀ b ∈ Bindings.insertAll [] (p.positional.zip args), V b.2 := by
    intro b hb
    rcases Bindings.mem_insertAll hb with hb | hb
    · exact h _ (List.of_mem_zip hb).2
    · cases hb
  unfold Params.bindings
  cases p.rest with
  | none => exact positional
  | some rest =>
    intro b hb
    rcases Bindings.mem_insert hb with rfl | hb
    · exact hV.list.2 fun v hv => h v (List.mem_of_mem_drop hv)
    · exact positional b hb

end

end Hereditary

end MiniLisp

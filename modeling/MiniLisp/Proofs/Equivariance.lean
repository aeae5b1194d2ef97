import Mathlib
import MiniLisp.Eval.Step
import MiniLisp.Proofs.Data
import MiniLisp.Proofs.Refers

/-!
# Operations on values do not look at references

Whatever builtins and special forms do to values without a look at the machine commutes with renaming. So does the
print of a value, if the texts of atoms are renamed along (`render_rename`).
-/

namespace MiniLisp

open Refers (rename refs)

/-! ## Outcomes and lists -/

/-- A list is mapped from the front, and the first fault is the fault of the whole. -/
theorem mapM_cons_except {α β ε : Type} (g : α → Except ε β) (a : α) (as : List α) :
    (a :: as).mapM g =
      match g a with
      | .error fault => .error fault
      | .ok b => (as.mapM g).map (b :: ·) := by
  rw [List.mapM_cons]
  cases g a with
  | error fault => rfl
  | ok b => cases as.mapM g <;> rfl

section

variable {α β γ ε : Type} [Refers α] [Refers β] [Refers γ] [Refers ε]

/-- Renaming the outcome commutes with a step after it, when the step is equivariant. -/
theorem rename_map_except {g : α → β} (h : Equivariant g) (f : Renaming) (r : Except ε α) :
    (rename f r).map g = rename f (r.map g) := by
  cases r with
  | error fault => rfl
  | ok a => exact congrArg Except.ok (h f a)

/-- An equivariant step after an equivariant function. -/
theorem Equivariant.map {x : γ → Except ε α} {g : α → β} (hx : Equivariant x) (h : Equivariant g) :
    Equivariant fun c => (x c).map g :=
  fun f c => (congrArg (Except.map g) (hx f c)).trans (rename_map_except h f (x c))

/-- An equivariant function may be applied to every element. -/
theorem Equivariant.mapM {g : α → Except ε β} (h : Equivariant g) : Equivariant fun as : List α => as.mapM g := by
  intro f as
  induction as with
  | nil => rfl
  | cons a as ih =>
    simp only [Refers.rename_cons, mapM_cons_except, h f a]
    cases g a with
    | error fault => rfl
    | ok b =>
      simp only [Refers.rename_ok, ih]
      cases as.mapM g <;> rfl

end

/-- A test of values that does not look at references. Every type test is one: it reads the constructor, or whether
the value may be called. -/
theorem equivariant_test {test : Value → Bool} (h : ∀ f v, test (rename f v) = test v) :
    Equivariant fun v => Value.bool (test v) := fun f v => congrArg Value.bool (h f v)

/-! ## Values -/

namespace Value

variable (f : Renaming)

/-- Truth depends on the constructor alone. -/
@[simp] theorem truthy_rename (v : Value) : (Refers.rename f v).truthy = v.truthy := by
  cases v with
  | bool b => cases b <;> rfl
  | _ => rfl

@[simp] theorem expands_rename (v : Value) : (Refers.rename f v).expands = v.expands := by cases v <;> rfl

@[simp] theorem callable_rename (v : Value) : (Refers.rename f v).callable = v.callable := by cases v <;> rfl

@[simp] theorem items?_rename (v : Value) : (Refers.rename f v).items? = Refers.rename f v.items? := by
  cases v with
  | list xs => exact congrArg some (renameItems_eq f xs)
  | vector xs => exact congrArg some (renameItems_eq f xs)
  | _ => rfl

@[simp] theorem ofValue?_rename (v : Value) : SpecialForm.ofValue? (Refers.rename f v) = SpecialForm.ofValue? v := by
  cases v <;> rfl

/-- Keys hold no references. -/
@[simp] theorem key_rename (v : Value) : Key.ofValue? (Refers.rename f v) = Key.ofValue? v := by cases v <;> rfl

@[simp] theorem number_rename (v : Value) : Number.ofValue? (Refers.rename f v) = Number.ofValue? v := by
  cases v <;> rfl

@[simp] theorem rename_toValue (x : Number) : Refers.rename f x.toValue = x.toValue := by cases x <;> rfl

@[simp] theorem rename_keyValue (k : Key) : Refers.rename f k.toValue = k.toValue := by cases k <;> rfl

@[simp] theorem rename_quoted (v : Value) : Refers.rename f v.quoted = (Refers.rename f v).quoted := by simp [quoted]

/-- Data refer to nothing. -/
theorem rename_of_isData {v : Value} (h : v.IsData) : Refers.rename f v = v := by
  induction h with
  | @list xs _ ih => rw [rename_list]; exact congrArg list ((List.map_congr_left ih).trans (List.map_id xs))
  | @vector xs _ ih => rw [rename_vector]; exact congrArg vector ((List.map_congr_left ih).trans (List.map_id xs))
  | @map es _ ih =>
    rw [rename_map]
    refine congrArg map ((List.map_congr_left fun e he => ?_).trans (List.map_id es))
    exact Prod.ext rfl (ih e he)
  | _ => rfl

/-- Data refers to nothing. -/
theorem refs_of_isData {v : Value} (h : v.IsData) : Refers.refs v = [] := by
  induction h with
  | @list xs _ ih => exact (refsItems_eq xs).trans (List.flatMap_eq_nil_iff.2 ih)
  | @vector xs _ ih => exact (refsItems_eq xs).trans (List.flatMap_eq_nil_iff.2 ih)
  | @map es _ ih => exact (refsEntries_eq es).trans (List.flatMap_eq_nil_iff.2 ih)
  | _ => rfl

end Value

/-! ## Entries and bindings -/

namespace Entries

variable (f : Renaming)

/-- Looking up commutes with renaming, since keys are not renamed. -/
@[simp] theorem find?_rename (k : Key) (es : Entries) : find? k (rename f es) = rename f (find? k es) := by
  induction es with
  | nil => rfl
  | cons e es ih =>
    simp only [Refers.rename_cons, find?, ih]
    change (if e.1 = k then _ else _) = _
    split <;> rfl

/-- So does insertion, which compares keys only. -/
@[simp] theorem insert_rename (k : Key) (v : Value) (es : Entries) :
    insert k (rename f v) (rename f es) = rename f (insert k v es) := by
  induction es with
  | nil => rfl
  | cons e es ih =>
    simp only [Refers.rename_cons, insert, ih]
    change (if e.1 = k then _ else if k.before e.1 then _ else _) = _
    split
    · rfl
    split <;> rfl

@[simp] theorem insertAll_rename (more es : Entries) :
    insertAll (rename f es) (rename f more) = rename f (insertAll es more) := by
  induction more generalizing es with
  | nil => rfl
  | cons e more ih => exact (congrArg (insertAll · _) (insert_rename f e.1 e.2 es)).trans (ih _)

@[simp] theorem erase_rename (k : Key) (es : Entries) : erase k (rename f es) = rename f (erase k es) := by
  simp only [erase]
  exact List.filter_map

/-- Items are paired up by position. -/
theorem equivariant_pairs : Equivariant pairs
  | _, [] => rfl
  | _, [_] => rfl
  | f, k :: v :: rest => by
    have others := equivariant_pairs f rest
    simp only [Refers.rename_cons] at others ⊢
    simp only [pairs, Value.key_rename, others]
    cases Key.ofValue? k with
    | none => rfl
    | some k => cases pairs rest <;> rfl

/-- Whether items make a map, and which, depends on their keys. -/
theorem equivariant_ofItems? : Equivariant ofItems? := by
  intro f items
  simp only [ofItems?, Refers.length_rename]
  split
  · rfl
  · rw [equivariant_pairs f items]
    exact rename_map_except (fun f es => insertAll_rename f es []) f _

theorem equivariant_keys : Equivariant keys := by
  intro f es
  simp [keys, Refers.rename_eq_map]

theorem equivariant_values : Equivariant values := by
  intro f es
  simp [values, Refers.rename_eq_map]

end Entries

namespace Bindings

variable (f : Renaming)

@[simp] theorem find?_rename (name : String) (bs : Bindings) : find? name (rename f bs) = rename f (find? name bs) := by
  induction bs with
  | nil => rfl
  | cons b bs ih =>
    simp only [Refers.rename_cons, find?, ih]
    change (if b.1 = name then _ else _) = _
    split <;> rfl

@[simp] theorem insert_rename (name : String) (v : Value) (bs : Bindings) :
    insert name (rename f v) (rename f bs) = rename f (insert name v bs) := by
  induction bs with
  | nil => rfl
  | cons b bs ih =>
    simp only [Refers.rename_cons, insert, ih]
    change (if b.1 = name then _ else _) = _
    split <;> rfl

theorem insertAll_rename (more bs : Bindings) :
    insertAll (rename f bs) (rename f more) = rename f (insertAll bs more) := by
  induction more generalizing bs with
  | nil => rfl
  | cons b more ih => exact (congrArg (insertAll · _) (insert_rename f b.1 b.2 bs)).trans (ih _)

end Bindings

/-- The bindings of a call hold its arguments and nothing else that could be renamed. -/
theorem Params.equivariant_bindings (p : Params) : Equivariant p.bindings := by
  intro f args
  have zipped : ∀ names : List String, names.zip (rename f args) = rename f (names.zip args) := by
    intro names
    simp [Refers.rename_eq_map, List.zip_map_right]
  have positional := Bindings.insertAll_rename f (p.positional.zip args) []
  have dropped : (rename f args).drop p.positional.length = rename f (args.drop p.positional.length) :=
    List.map_drop.symm
  simp only [Params.bindings, zipped, dropped]
  rw [show ([] : Bindings) = rename f [] from rfl, positional]
  cases p.rest with
  | none => rfl
  | some rest =>
    simp only [← Value.rename_list, Bindings.insert_rename]
    rfl

/-! ## Numbers -/

namespace Arithmetic

/-- What counts as a number is not renamed. -/
theorem equivariant_number : Equivariant number := by
  intro f v
  simp only [number, Value.number_rename]
  cases Number.ofValue? v <;> rfl

theorem equivariant_numbers : Equivariant numbers := equivariant_number.mapM

/-- What is made of numbers alone. -/
theorem equivariant_numberValue (g : List Number → Number) : Equivariant fun xs => (g xs).toValue := by
  intro f xs
  simp

theorem equivariant_sum : Equivariant sum :=
  equivariant_numbers.map (equivariant_numberValue fun xs => xs.foldl Number.add (.int 0))

theorem equivariant_product : Equivariant product :=
  equivariant_numbers.map (equivariant_numberValue fun xs => xs.foldl Number.multiply (.int 1))

theorem equivariant_difference : Equivariant difference := by
  refine equivariant_numbers.map fun f xs => ?_
  rw [Refers.rename_numbers]
  match xs with
  | [] => rfl
  | [x] => exact (Value.rename_toValue f _).symm
  | x :: y :: rest => exact (Value.rename_toValue f _).symm

theorem rename_divided (f : Renaming) (r : Except EvalError Number) :
    rename f (r.map Number.toValue) = (rename f r).map Number.toValue := by
  cases r with
  | error fault => rfl
  | ok x => exact congrArg Except.ok (Value.rename_toValue f x)

/-- Division works on numbers: the arguments are numbers or the fault is the same. -/
theorem equivariant_quotient : Equivariant quotient := by
  have divides (f : Renaming) (x y : Number) : rename f (divide x y) = divide x y := by
    unfold divide
    cases x.divide? y <;> rfl
  have divideAll (f : Renaming) (x : Number) (ys : List Number) :
      rename f (ys.foldlM divide x) = ys.foldlM divide x := by
    induction ys generalizing x with
    | nil => rfl
    | cons y ys ih =>
      simp only [List.foldlM_cons]
      have first := divides f x y
      cases h : divide x y with
      | error fault => rw [h] at first; exact first
      | ok z => exact ih z
  intro f args
  simp only [quotient, equivariant_numbers f args]
  match numbers args with
  | .error fault => rfl
  | .ok [] => rfl
  | .ok [x] =>
    simp only [Refers.rename_ok, Refers.rename_numbers, rename_divided, divides]
  | .ok (x :: y :: rest) =>
    simp only [Refers.rename_ok, Refers.rename_numbers, rename_divided, divideAll]

/-- Comparisons too see numbers only. -/
theorem equivariant_comparison (holds : Number → Number → Bool) :
    Equivariant fun p : Value × Value => comparison holds p.1 p.2 := by
  rintro f ⟨x, y⟩
  simp only [Refers.rename_pair, comparison, equivariant_number f x, equivariant_number f y]
  cases number x <;> cases number y <;> rfl

end Arithmetic

/-! ## Conversions -/

namespace Convert

/-- A text is a text under every renaming. -/
theorem equivariant_string : Equivariant string := by
  intro f v
  cases v <;> rfl

theorem equivariant_symbol : Equivariant symbol := by
  intro f v
  cases v <;> rfl

theorem equivariant_keyword : Equivariant keyword := by
  intro f v
  cases v <;> rfl

/-- What is read is data, which no renaming changes. -/
theorem equivariant_readString : Equivariant readString := by
  intro f v
  simp only [readString, equivariant_string f v]
  cases string v with
  | error fault => rfl
  | ok s =>
    change (match Value.read? s.toList with | _ => _) = rename f (match Value.read? s.toList with | _ => _)
    cases h : Value.read? s.toList with
    | ok form => exact congrArg Except.ok (Value.rename_of_isData f (Value.isData_of_read? h)).symm
    | error fault => cases fault <;> rfl

end Convert

/-! ## Sequences and maps -/

namespace Sequence

/-- The elements of a list or a vector are renamed with it. -/
theorem equivariant_strict : Equivariant strict := by
  intro f v
  simp only [strict, Value.items?_rename]
  cases v.items? <;> rfl

/-- The elements of what a sequence builtin takes for a sequence, `nil` included. -/
theorem equivariant_elements : Equivariant elements := by
  intro f v
  cases v with
  | nil => rfl
  | list xs => exact equivariant_strict f (.list xs)
  | vector xs => exact equivariant_strict f (.vector xs)
  | _ => rfl

theorem equivariant_vec : Equivariant vec :=
  equivariant_elements.map fun f xs => (Value.rename_vector f xs).symm

theorem equivariant_isEmpty : Equivariant isEmpty :=
  equivariant_elements.map fun _ xs => by cases xs <;> rfl

theorem equivariant_count : Equivariant count :=
  equivariant_elements.map fun f xs => by simp

theorem equivariant_cons : Equivariant fun p : Value × Value => cons p.1 p.2 := by
  rintro f ⟨x, s⟩
  simp only [Refers.rename_pair, cons, equivariant_elements f s]
  cases elements s <;> simp [Except.map]

theorem equivariant_concat : Equivariant concat :=
  equivariant_elements.mapM.map fun f xss => by
    rw [Value.rename_list]
    exact congrArg Value.list List.map_flatten.symm

theorem equivariant_first : Equivariant first :=
  equivariant_elements.map fun _ xs => by cases xs <;> rfl

theorem equivariant_rest : Equivariant rest :=
  equivariant_elements.map fun f xs => by cases xs <;> simp

/-- An element is picked by its position. -/
theorem equivariant_nth : Equivariant fun p : Value × Value => nth p.1 p.2 := by
  rintro f ⟨s, i⟩
  simp only [Refers.rename_pair, nth, equivariant_strict f s]
  cases strict s with
  | error fault => rfl
  | ok xs =>
    cases i with
    | int n =>
      have index : (rename f xs)[n.toInt.toNat]? = rename f xs[n.toInt.toNat]? := List.getElem?_map
      simp only [Refers.rename_ok, Value.rename_int, Refers.length_rename, index]
      by_cases h : n.toInt < 0
      · simp only [if_pos h]
        rfl
      · simp only [if_neg h]
        cases xs[n.toInt.toNat]? <;> rfl
    | _ => rfl

end Sequence

namespace Table

/-- The entries of a map are renamed with it. -/
theorem equivariant_entries : Equivariant entries := by
  intro f v
  cases v with
  | map es => exact congrArg Except.ok (Value.renameEntries_eq f es)
  | _ => rfl

theorem equivariant_key : Equivariant key := by
  intro f v
  simp only [key, Value.key_rename]
  cases Key.ofValue? v <;> rfl

/-- What `assoc` adds is made from its arguments two by two. -/
theorem equivariant_additions : Equivariant additions := by
  intro f items
  simp only [additions, Entries.equivariant_ofItems? f items]
  cases Entries.ofItems? items <;> rfl

theorem equivariant_hashMap : Equivariant hashMap :=
  equivariant_additions.map fun f es => (Value.rename_map f es).symm

theorem equivariant_assoc : Equivariant fun p : Value × List Value => assoc p.1 p.2 := by
  rintro f ⟨m, items⟩
  simp only [Refers.rename_pair, assoc, equivariant_entries f m, equivariant_additions f items]
  cases entries m with
  | error fault => rfl
  | ok es => cases additions items <;> simp [Except.map]

theorem equivariant_dissoc : Equivariant fun p : Value × List Value => dissoc p.1 p.2 := by
  have erased (f : Renaming) (ks : List Key) (es : Entries) :
      ks.foldl (fun acc k => Entries.erase k acc) (rename f es) =
        rename f (ks.foldl (fun acc k => Entries.erase k acc) es) := by
    induction ks generalizing es with
    | nil => rfl
    | cons k ks ih => simp only [List.foldl_cons, Entries.erase_rename, ih]
  rintro f ⟨m, items⟩
  simp only [Refers.rename_pair, dissoc, equivariant_entries f m, equivariant_key.mapM f items]
  cases entries m with
  | error fault => rfl
  | ok es =>
    cases items.mapM key with
    | error fault => rfl
    | ok ks => simp [Except.map, erased]

/-- A value is found by its key, so the renamed value is found in the renamed map. -/
theorem equivariant_get : Equivariant fun p : Value × Value => get p.1 p.2 := by
  rintro f ⟨m, k⟩
  simp only [Refers.rename_pair]
  have found (m : Value) (h : ∀ es, m = .map es → get (rename f m) (rename f k) = rename f (get m k)) :
      get (rename f m) (rename f k) = rename f (get m k) := by
    cases m with
    | map es => exact h es rfl
    | _ => rfl
  refine found m fun es hm => ?_
  subst hm
  simp only [Value.rename_map, get, entries, equivariant_key f k]
  cases key k with
  | error fault => rfl
  | ok k =>
    simp only [Refers.rename_ok, Except.map, Refers.rename_key, Entries.find?_rename]
    cases Entries.find? k es <;> rfl

theorem equivariant_contains : Equivariant fun p : Value × Value => contains p.1 p.2 := by
  rintro f ⟨m, k⟩
  simp only [Refers.rename_pair, contains, equivariant_entries f m, equivariant_key f k]
  cases entries m with
  | error fault => rfl
  | ok es =>
    cases key k with
    | error fault => rfl
    | ok k =>
      simp only [Refers.rename_ok, Except.map, Refers.rename_key, Entries.find?_rename]
      cases Entries.find? k es <;> rfl

theorem equivariant_keys : Equivariant keys :=
  equivariant_entries.map fun f es => by rw [Entries.equivariant_keys f es, Value.rename_list]

theorem equivariant_vals : Equivariant vals :=
  equivariant_entries.map fun f es => by rw [Entries.equivariant_values f es, Value.rename_list]

end Table

/-! ## Equality -/

namespace Value

mutual

/-- Equality survives a renaming of both sides, as closures and atoms are compared by their names and a renaming is
one to one. -/
theorem equal_rename (f : Renaming) : ∀ v w : Value, (v.rename f).equal (w.rename f) = v.equal w
  | list xs, w => by cases w <;> simp [rename, equal, equalItems_rename f xs]
  | vector xs, w => by cases w <;> simp [rename, equal, equalItems_rename f xs]
  | map es, w => by cases w <;> simp [rename, equal, renameEntries_eq, equalEntries_rename f es]
  | rooted _ _, w | closure _ _ _ _ _, w | atom _, w => by
    have same (k : RefKind) (i j : Nat) : (f k i == f k j) = (i == j) := by simp
    cases w <;> simp only [rename, equal, same]
  | nil, w | bool _, w | int _, w | float _, w | text _, w | symbol _, w | keyword _, w | builtin _, w => by
    cases w <;> rfl

theorem equalItems_rename (f : Renaming) : ∀ xs ys : List Value,
    equalItems (renameItems f xs) (renameItems f ys) = equalItems xs ys
  | [], ys => by cases ys <;> rfl
  | x :: xs, [] => rfl
  | x :: xs, y :: ys => by simp only [renameItems, equalItems, equal_rename f x y, equalItems_rename f xs ys]

theorem equalEntries_rename (f : Renaming) : ∀ es fs : Entries,
    equalEntries (Refers.rename f es) (Refers.rename f fs) = equalEntries es fs
  | [], _ => rfl
  | (k, x) :: es, fs => by
    have first : ∀ y, (Refers.rename f x).equal (Refers.rename f y) = x.equal y := equal_rename f x
    simp only [Refers.rename_cons, Refers.rename_pair, Refers.rename_key, equalEntries, Entries.find?_rename,
      equalEntries_rename f es fs]
    cases Entries.find? k fs with
    | none => rfl
    | some y => simp only [Refers.rename_some, first]

end

theorem equivariant_equal : Equivariant fun p : Value × Value => bool (p.1.equal p.2) :=
  fun f p => congrArg bool (equal_rename f p.1 p.2)

/-! ## Templates -/

/-- Markers are told by a symbol and a count. -/
theorem equivariant_operand? (name : String) : Equivariant (operand? name)
  | _, [] => rfl
  | _, [_] => rfl
  | _, [_, _] => rfl
  | f, x :: y :: z :: rest => by
    simp only [Refers.rename_cons, operand?, List.length_cons, Refers.length_rename]
    rfl

theorem equivariant_marked? (name : String) : Equivariant (marked? name) := by
  intro f v
  cases v with
  | list xs =>
    rw [rename_list]
    cases xs with
    | nil => rfl
    | cons x xs =>
      cases x with
      | symbol s =>
        simp only [Refers.rename_cons, rename_symbol, marked?]
        split <;> rfl
      | _ => rfl
  | _ => rfl

mutual

/-- A template is taken apart by lists, symbols and counts; everything else is carried along. -/
theorem template_rename (f : Renaming) : ∀ v : Value, template (v.rename f) = Refers.rename f (template v)
  | list xs => by
    have marked := equivariant_marked? "unquote" f (list xs)
    rw [rename_list] at marked
    simp only [rename, renameItems_eq, template, marked]
    cases marked? "unquote" (list xs) with
    | some marker => exact equivariant_operand? _ f marker
    | none => exact templateItems_rename f xs
  | vector xs => by
    simp only [rename, renameItems_eq, template, templateItems_rename f xs]
    cases templateItems xs <;> simp [Except.map]
  | map es => by
    change template (Refers.rename f (map es)) = _
    simp only [rename_map, template, Refers.rename_ok, rename_quoted]
  | rooted _ _ | closure _ _ _ _ _ | atom _ | nil | bool _ | int _ | float _ | text _ | symbol _ | keyword _
  | builtin _ => rfl

theorem templateItems_rename (f : Renaming) : ∀ xs : List Value,
    templateItems (Refers.rename f xs) = Refers.rename f (templateItems xs)
  | [] => rfl
  | x :: xs => by
    have first : template (Refers.rename f x) = Refers.rename f (template x) := template_rename f x
    simp only [Refers.rename_cons, templateItems, templateItems_rename f xs, equivariant_marked? _ f x, first]
    cases templateItems xs with
    | error fault => rfl
    | ok form =>
      cases marked? "splice-unquote" x with
      | some marker =>
        simp only [Refers.rename_ok, Refers.rename_some, equivariant_operand? _ f marker]
        cases operand? "splice-unquote" marker <;> simp [Except.map]
      | none =>
        simp only [Refers.rename_ok, Refers.rename_none]
        cases template x <;> simp [Except.map]

end

end Value

/-! ## Special forms -/

namespace Step

/-- The form that fills a renamed template is the renamed form. -/
theorem equivariant_template : Equivariant template := by
  intro f v
  have renamed : (rename f v).template = rename f v.template := Value.template_rename f v
  simp only [template, renamed]
  cases v.template <;> rfl

/-- Which bindings a `let*` takes depends on the shape of the form. -/
theorem equivariant_bindingItems : Equivariant bindingItems := by
  intro f v
  simp only [bindingItems, Value.items?_rename]
  cases v.items? with
  | none => rfl
  | some xs =>
    simp only [Refers.rename_some, Refers.length_rename]
    split <;> rfl

/-- Parameters are symbols, which hold no references. -/
theorem signature_rename (f : Renaming) (v : Value) : signature (rename f v) = signature v := by
  have name (x : Value) : parameterName (rename f x) = parameterName x := by cases x <;> rfl
  have names (xs : List Value) : (rename f xs).mapM parameterName = xs.mapM parameterName := by
    induction xs with
    | nil => rfl
    | cons x xs ih => simp only [Refers.rename_cons, mapM_cons_except, name, ih]
  simp only [signature, Value.items?_rename]
  cases v.items? with
  | none => rfl
  | some xs => simp only [Refers.rename_some, names]

end Step

/-- The parts of the form that `swap!` evaluates. -/
theorem Call.equivariant_swapForm :
    Equivariant fun p : Value × Value × Value × List Value => swapForm p.1 p.2.1 p.2.2.1 p.2.2.2 := by
  rintro f ⟨cell, g, contents, args⟩
  have quoted : (rename f args).map Value.quoted = rename f (args.map Value.quoted) := by
    simp [Refers.rename_eq_map]
  simp [swapForm, quoted]

/-! ## Texts -/

namespace Value

variable {contents contents' : AtomId → Option (List Char)} {f : Renaming} {mode : Mode}

mutual

/-- The print of a renamed value is the print of the value, if every atom in it has the text that its renamed one
has. -/
theorem render_rename : ∀ {v : Value}, (∀ a, ⟨.atom, a⟩ ∈ v.refs → contents' (f .atom a) = contents a) →
    (v.rename f).render mode contents' = v.render mode contents
  | list _, h | vector _, h => congrArg (Option.map _) (renderItems_rename h)
  | map _, h => congrArg (Option.map _) (renderEntries_rename h)
  | atom a, h => by simp only [rename, render, h a (by simp [refs])]
  | rooted _ _, _ | closure _ _ _ _ _, _ | nil, _ | bool _, _ | int _, _ | float _, _ | text _, _ | symbol _, _
  | keyword _, _ | builtin _, _ => rfl

/-- The same for items, one after the other. -/
theorem renderItems_rename : ∀ {xs : List Value},
    (∀ a, ⟨.atom, a⟩ ∈ refsItems xs → contents' (f .atom a) = contents a) →
      renderItems mode contents' (renameItems f xs) = renderItems mode contents xs
  | [], _ => rfl
  | x :: xs, h => by
    have first := render_rename (v := x) fun a ha => h a (List.mem_append_left _ ha)
    have others : renderItems mode contents' (renameItems f xs) = renderItems mode contents xs :=
      renderItems_rename fun a ha => h a (List.mem_append_right _ ha)
    simp only [renameItems, renderItems, first, others]

theorem renderEntries_rename : ∀ {es : List (Key × Value)},
    (∀ a, ⟨.atom, a⟩ ∈ refsEntries es → contents' (f .atom a) = contents a) →
      renderEntries mode contents' (renameEntries f es) = renderEntries mode contents es
  | [], _ => rfl
  | (k, x) :: es, h => by
    have first := render_rename (v := x) fun a ha => h a (List.mem_append_left _ ha)
    have others : renderEntries mode contents' (renameEntries f es) = renderEntries mode contents es :=
      renderEntries_rename fun a ha => h a (List.mem_append_right _ ha)
    simp only [renameEntries, renderEntries, first, others]

end

end Value

end MiniLisp

import Mathlib
import MiniLisp.Eval.Call

/-!
# References and their renaming

A value refers to frames, roots, atoms and closures by numbers, and which numbers these are means nothing in itself. A
renaming permutes the numbers of each kind. An operation that does not look at numbers commutes with every renaming
(`Equivariant`), and then what it makes refers to nothing that it was not given (`Equivariant.refs_subset`).

* `Refers`: data in which there are references.
-/

namespace MiniLisp

/-! ## References -/

/-- The kinds of things that are referred to. The root of a rooted builtin is one of its own. -/
inductive RefKind
  | frame | root | atom | closure
  deriving DecidableEq

/-- A reference. -/
structure Ref where
  kind : RefKind
  index : Nat
  deriving DecidableEq

/-- A permutation of the numbers of each kind. -/
abbrev Renaming := RefKind → Equiv.Perm Nat

namespace Ref

def rename (f : Renaming) (x : Ref) : Ref := ⟨x.kind, f x.kind x.index⟩

@[simp] theorem rename_mk (f : Renaming) (k : RefKind) (i : Nat) : rename f ⟨k, i⟩ = ⟨k, f k i⟩ := rfl

@[simp] theorem kind_rename (f : Renaming) (x : Ref) : (x.rename f).kind = x.kind := rfl

/-- The renaming that renames nothing. -/
theorem rename_one (x : Ref) : x.rename 1 = x := rfl

/-- Renaming twice is renaming by the product. -/
theorem rename_mul (f g : Renaming) (x : Ref) : (x.rename g).rename f = x.rename (f * g) := rfl

end Ref

/-- Data in which there are references. -/
class Refers (α : Type) where
  rename : Renaming → α → α
  refs : α → List Ref
  rename_one (a : α) : rename 1 a = a
  rename_mul (f g : Renaming) (a : α) : rename f (rename g a) = rename (f * g) a
  rename_congr {f g : Renaming} {a : α} (h : ∀ x ∈ refs a, x.rename f = x.rename g) : rename f a = rename g a
  refs_rename (f : Renaming) (a : α) : refs (rename f a) = (refs a).map (Ref.rename f)

open Refers (rename refs)

namespace Refers

variable {α β ε : Type}

/-- A renaming is undone by its inverse. -/
theorem rename_inv [Refers α] (f : Renaming) (a : α) : rename f⁻¹ (rename f a) = a := by
  rw [rename_mul, inv_mul_cancel, rename_one]

/-- Data without references. -/
@[reducible]
def nothing (α : Type) : Refers α where
  rename _ a := a
  refs _ := []
  rename_one _ := rfl
  rename_mul _ _ _ := rfl
  rename_congr _ := rfl
  refs_rename _ _ := rfl

instance : Refers Key := nothing Key
instance : Refers String := nothing String
instance : Refers Bool := nothing Bool
instance : Refers Unit := nothing Unit
instance : Refers ArityError := nothing ArityError
instance : Refers MapError := nothing MapError
instance : Refers Number := nothing Number

instance : Refers Ref := ⟨Ref.rename, fun x => [x], Ref.rename_one, Ref.rename_mul, fun h => h _ List.mem_cons_self,
  fun _ _ => rfl⟩

instance [Refers α] : Refers (List α) where
  rename f as := as.map (rename f)
  refs as := as.flatMap refs
  rename_one as := (List.map_congr_left fun a _ => rename_one a).trans (List.map_id as)
  rename_mul f g as := by simp [rename_mul, Function.comp_def]
  rename_congr h := by
    refine List.map_congr_left fun a ha => rename_congr fun x hx => h x ?_
    exact List.mem_flatMap.2 ⟨a, ha, hx⟩
  refs_rename f as := by simp [List.flatMap_map, List.map_flatMap, refs_rename]

instance [Refers α] [Refers β] : Refers (α × β) where
  rename f p := (rename f p.1, rename f p.2)
  refs p := refs p.1 ++ refs p.2
  rename_one p := by simp [rename_one]
  rename_mul f g p := by simp [rename_mul]
  rename_congr h := by
    refine Prod.ext (rename_congr fun x hx => h x ?_) (rename_congr fun x hx => h x ?_)
    · exact List.mem_append_left _ hx
    · exact List.mem_append_right _ hx
  refs_rename f p := by simp [refs_rename]

instance [Refers α] : Refers (Option α) where
  rename f o := o.map (rename f)
  refs o := o.elim [] refs
  rename_one o := by cases o <;> simp [rename_one]
  rename_mul f g o := by cases o <;> simp [rename_mul]
  rename_congr {_ _ o} h := by
    cases o with
    | none => rfl
    | some a => exact congrArg some (rename_congr h)
  refs_rename f o := by cases o <;> simp [refs_rename]

instance [Refers ε] [Refers α] : Refers (Except ε α) where
  rename f r := match r with
    | .ok a => .ok (rename f a)
    | .error e => .error (rename f e)
  refs r := match r with
    | .ok a => refs a
    | .error e => refs e
  rename_one r := by cases r <;> simp [rename_one]
  rename_mul f g r := by cases r <;> simp [rename_mul]
  rename_congr {_ _ r} h := by
    cases r with
    | ok a => exact congrArg Except.ok (rename_congr h)
    | error e => exact congrArg Except.error (rename_congr h)
  refs_rename f r := by cases r <;> simp [refs_rename]

section

variable [Refers α] [Refers β] (f : Renaming)

@[simp] theorem rename_nil : rename f ([] : List α) = [] := rfl

@[simp] theorem rename_cons (a : α) (as : List α) : rename f (a :: as) = rename f a :: rename f as := rfl

/-- A list is renamed element by element, so the lemmas on `List.map` apply. -/
theorem rename_eq_map (as : List α) : rename f as = as.map (rename f) := rfl

@[simp] theorem rename_append (as bs : List α) : rename f (as ++ bs) = rename f as ++ rename f bs := List.map_append

@[simp] theorem length_rename (as : List α) : (rename f as).length = as.length := List.length_map _

@[simp] theorem rename_pair (a : α) (b : β) : rename f (a, b) = (rename f a, rename f b) := rfl

@[simp] theorem rename_key (k : Key) : rename f k = k := rfl

@[simp] theorem rename_string (s : String) : rename f s = s := rfl

@[simp] theorem rename_keys (ks : List Key) : rename f ks = ks := List.map_id ks

@[simp] theorem rename_numbers (xs : List Number) : rename f xs = xs := List.map_id xs

@[simp] theorem rename_some (a : α) : rename f (some a) = some (rename f a) := rfl

@[simp] theorem rename_none : rename f (none : Option α) = none := rfl

@[simp] theorem rename_ok [Refers ε] (a : α) : rename f (.ok a : Except ε α) = .ok (rename f a) := rfl

@[simp] theorem rename_error [Refers ε] (e : ε) : rename f (.error e : Except ε α) = .error (rename f e) := rfl

end

end Refers

/-! ## Values -/

namespace Value

mutual

def rename (f : Renaming) : Value → Value
  | list xs => list (renameItems f xs)
  | vector xs => vector (renameItems f xs)
  | map es => map (renameEntries f es)
  | rooted b root => rooted b (f .root root)
  | closure id params body captured isMacro =>
    closure (f .closure id) params (body.rename f) (f .frame captured) isMacro
  | atom a => atom (f .atom a)
  | v => v

def renameItems (f : Renaming) : List Value → List Value
  | [] => []
  | x :: xs => x.rename f :: renameItems f xs

def renameEntries (f : Renaming) : List (Key × Value) → List (Key × Value)
  | [] => []
  | (k, x) :: es => (k, x.rename f) :: renameEntries f es

end

mutual

/-- What a value refers to. -/
def refs : Value → List Ref
  | list xs | vector xs => refsItems xs
  | map es => refsEntries es
  | rooted _ root => [⟨.root, root⟩]
  | closure id _ body captured _ => ⟨.closure, id⟩ :: ⟨.frame, captured⟩ :: body.refs
  | atom a => [⟨.atom, a⟩]
  | _ => []

def refsItems : List Value → List Ref
  | [] => []
  | x :: xs => x.refs ++ refsItems xs

def refsEntries : List (Key × Value) → List Ref
  | [] => []
  | (_, x) :: es => x.refs ++ refsEntries es

end

mutual

/-- A value renamed by the identity is itself. The recursion goes through the items of lists and the values of maps.
-/
theorem rename_one : ∀ v : Value, v.rename 1 = v
  | list xs => congrArg list (renameItems_one xs)
  | vector xs => congrArg vector (renameItems_one xs)
  | map es => congrArg map (renameEntries_one es)
  | closure _ _ body _ _ => by simp [rename, rename_one body]
  | nil | bool _ | int _ | float _ | text _ | symbol _ | keyword _ | builtin _ | rooted _ _ | atom _ => rfl

theorem renameItems_one : ∀ xs : List Value, renameItems 1 xs = xs
  | [] => rfl
  | x :: xs => by simp [renameItems, rename_one x, renameItems_one xs]

theorem renameEntries_one : ∀ es : List (Key × Value), renameEntries 1 es = es
  | [] => rfl
  | (k, x) :: es => by simp [renameEntries, rename_one x, renameEntries_one es]

end

mutual

/-- Renaming a value twice is renaming it by the product. -/
theorem rename_mul (f g : Renaming) : ∀ v : Value, (v.rename g).rename f = v.rename (f * g)
  | list xs => congrArg list (renameItems_mul f g xs)
  | vector xs => congrArg vector (renameItems_mul f g xs)
  | map es => congrArg map (renameEntries_mul f g es)
  | closure _ _ body _ _ => by simp [rename, rename_mul f g body]
  | nil | bool _ | int _ | float _ | text _ | symbol _ | keyword _ | builtin _ | rooted _ _ | atom _ => rfl

theorem renameItems_mul (f g : Renaming) : ∀ xs : List Value,
    renameItems f (renameItems g xs) = renameItems (f * g) xs
  | [] => rfl
  | x :: xs => by simp [renameItems, rename_mul f g x, renameItems_mul f g xs]

theorem renameEntries_mul (f g : Renaming) : ∀ es : List (Key × Value),
    renameEntries f (renameEntries g es) = renameEntries (f * g) es
  | [] => rfl
  | (k, x) :: es => by simp [renameEntries, rename_mul f g x, renameEntries_mul f g es]

end

mutual

/-- How a value is renamed depends on the objects it refers to and on no others. -/
theorem rename_congr {f g : Renaming} : ∀ {v : Value}, (∀ x ∈ v.refs, x.rename f = x.rename g) →
    v.rename f = v.rename g
  | list _, h => congrArg list (renameItems_congr h)
  | vector _, h => congrArg vector (renameItems_congr h)
  | map _, h => congrArg map (renameEntries_congr h)
  | closure id _ body captured _, h => by
    have inner := rename_congr (v := body) fun x hx => h x (by simp [refs, hx])
    have id' := h ⟨.closure, id⟩ (by simp [refs])
    have captured' := h ⟨.frame, captured⟩ (by simp [refs])
    simp only [Ref.rename_mk, Ref.mk.injEq, true_and] at id' captured'
    simp only [rename, inner, id', captured']
  | rooted _ root, h => by
    have root' := h ⟨.root, root⟩ (by simp [refs])
    simp only [Ref.rename_mk, Ref.mk.injEq, true_and] at root'
    simp only [rename, root']
  | atom a, h => by
    have a' := h ⟨.atom, a⟩ (by simp [refs])
    simp only [Ref.rename_mk, Ref.mk.injEq, true_and] at a'
    simp only [rename, a']
  | nil, _ | bool _, _ | int _, _ | float _, _ | text _, _ | symbol _, _ | keyword _, _ | builtin _, _ => rfl

theorem renameItems_congr {f g : Renaming} : ∀ {xs : List Value}, (∀ x ∈ refsItems xs, x.rename f = x.rename g) →
    renameItems f xs = renameItems g xs
  | [], _ => rfl
  | x :: xs, h => by
    have first := rename_congr (v := x) fun y hy => h y (List.mem_append_left _ hy)
    have others : renameItems f xs = renameItems g xs := renameItems_congr fun y hy => h y (List.mem_append_right _ hy)
    simp only [renameItems, first, others]

theorem renameEntries_congr {f g : Renaming} : ∀ {es : List (Key × Value)},
    (∀ x ∈ refsEntries es, x.rename f = x.rename g) → renameEntries f es = renameEntries g es
  | [], _ => rfl
  | (k, x) :: es, h => by
    have first := rename_congr (v := x) fun y hy => h y (List.mem_append_left _ hy)
    have others : renameEntries f es = renameEntries g es :=
      renameEntries_congr fun y hy => h y (List.mem_append_right _ hy)
    simp only [renameEntries, first, others]

end

mutual

/-- What a renamed value refers to are the renamed references. -/
theorem refs_rename (f : Renaming) : ∀ v : Value, (v.rename f).refs = v.refs.map (Ref.rename f)
  | list xs | vector xs => refsItems_rename f xs
  | map es => refsEntries_rename f es
  | closure _ _ body _ _ => by simp [rename, refs, refs_rename f body]
  | nil | bool _ | int _ | float _ | text _ | symbol _ | keyword _ | builtin _ | rooted _ _ | atom _ => rfl

theorem refsItems_rename (f : Renaming) : ∀ xs : List Value,
    refsItems (renameItems f xs) = (refsItems xs).map (Ref.rename f)
  | [] => rfl
  | x :: xs => by simp [renameItems, refsItems, refs_rename f x, refsItems_rename f xs]

theorem refsEntries_rename (f : Renaming) : ∀ es : List (Key × Value),
    refsEntries (renameEntries f es) = (refsEntries es).map (Ref.rename f)
  | [] => rfl
  | (k, x) :: es => by simp [renameEntries, refsEntries, refs_rename f x, refsEntries_rename f es]

end

instance : Refers Value := ⟨rename, refs, rename_one, rename_mul, rename_congr, refs_rename⟩

/-- The recursion over items is the renaming of lists. -/
theorem renameItems_eq (f : Renaming) (xs : List Value) : renameItems f xs = Refers.rename f xs := by
  induction xs with
  | nil => rfl
  | cons x xs ih => exact congrArg (x.rename f :: ·) ih

/-- The recursion over entries is the renaming of lists of pairs. -/
theorem renameEntries_eq (f : Renaming) (es : Entries) : renameEntries f es = Refers.rename f es := by
  induction es with
  | nil => rfl
  | cons e es ih => exact congrArg ((e.1, e.2.rename f) :: ·) ih

/-- The references of items are those of the list. -/
theorem refsItems_eq (xs : List Value) : refsItems xs = Refers.refs xs := by
  induction xs with
  | nil => rfl
  | cons x xs ih => exact congrArg (x.refs ++ ·) ih

/-- The references of entries are those of the list of pairs. -/
theorem refsEntries_eq (es : Entries) : refsEntries es = Refers.refs es := by
  induction es with
  | nil => rfl
  | cons e es ih => exact congrArg (e.2.refs ++ ·) ih

section

variable (f : Renaming)

@[simp] theorem rename_nil : Refers.rename f nil = nil := rfl

@[simp] theorem rename_bool (b : Bool) : Refers.rename f (bool b) = bool b := rfl

@[simp] theorem rename_int (n : Int64) : Refers.rename f (int n) = int n := rfl

@[simp] theorem rename_float (x : Float) : Refers.rename f (float x) = float x := rfl

@[simp] theorem rename_text (s : String) : Refers.rename f (text s) = text s := rfl

@[simp] theorem rename_symbol (name : String) : Refers.rename f (symbol name) = symbol name := rfl

@[simp] theorem rename_keyword (name : String) : Refers.rename f (keyword name) = keyword name := rfl

@[simp] theorem rename_builtin (b : Builtin) : Refers.rename f (builtin b) = builtin b := rfl

@[simp] theorem rename_rooted (b : Rooted) (root : FrameId) :
    Refers.rename f (rooted b root) = rooted b (f .root root) := rfl

/-- A closure is renamed in three places: its own name, its body and the frame it has captured. -/
@[simp] theorem rename_closure (id : ClosureId) (params : Params) (body : Value) (captured : FrameId)
    (isMacro : Bool) :
    Refers.rename f (closure id params body captured isMacro) =
      closure (f .closure id) params (Refers.rename f body) (f .frame captured) isMacro := rfl

/-- An atom is renamed; its value stays in the machine and is renamed there. -/
@[simp] theorem rename_atom (a : AtomId) : Refers.rename f (atom a) = atom (f .atom a) := rfl

@[simp] theorem rename_list (xs : List Value) : Refers.rename f (list xs) = list (Refers.rename f xs) :=
  congrArg list (renameItems_eq f xs)

@[simp] theorem rename_vector (xs : List Value) : Refers.rename f (vector xs) = vector (Refers.rename f xs) :=
  congrArg vector (renameItems_eq f xs)

@[simp] theorem rename_map (es : Entries) : Refers.rename f (map es) = map (Refers.rename f es) :=
  congrArg map (renameEntries_eq f es)

end

end Value

/-! ## Faults, steps and frames -/

instance : Refers EvalError where
  rename f
    | .thrown payload => .thrown (rename f payload)
    | fault => fault
  refs
    | .thrown payload => refs payload
    | _ => []
  rename_one fault := by cases fault <;> simp [Refers.rename_one]
  rename_mul f g fault := by cases fault <;> simp [Refers.rename_mul]
  rename_congr {_ _ fault} h := by
    cases fault with
    | thrown payload => exact congrArg EvalError.thrown (Refers.rename_congr h)
    | _ => rfl
  refs_rename f fault := by
    cases fault with
    | thrown payload => exact Refers.refs_rename f payload
    | _ => rfl

instance : Refers Turn where
  rename f
    | .done v => .done (rename f v)
    | .again e form => .again (f .frame e) (rename f form)
  refs
    | .done v => refs v
    | .again e form => ⟨.frame, e⟩ :: refs form
  rename_one turn := by cases turn <;> simp [Refers.rename_one]
  rename_mul f g turn := by cases turn <;> simp [Refers.rename_mul]
  rename_congr {_ _ turn} h := by
    cases turn with
    | done v => exact congrArg Turn.done (Refers.rename_congr h)
    | again e form =>
      have e' := h ⟨.frame, e⟩ List.mem_cons_self
      simp only [Ref.rename_mk, Ref.mk.injEq, true_and] at e'
      have form' := Refers.rename_congr (a := form) fun x hx => h x (List.mem_cons_of_mem _ hx)
      simp only [e', form']
  refs_rename f turn := by cases turn <;> simp [Refers.refs_rename]

instance : Refers Frame where
  rename f frame := ⟨rename f frame.bindings, frame.outer.map (f .frame)⟩
  refs frame := refs frame.bindings ++ frame.outer.toList.map (Ref.mk .frame)
  rename_one frame := by
    obtain ⟨bs, outer⟩ := frame
    cases outer <;> simp [Refers.rename_one]
  rename_mul f g frame := by simp [Refers.rename_mul]
  rename_congr {f g frame} h := by
    have bindings := Refers.rename_congr (a := frame.bindings) fun x hx => h x (List.mem_append_left _ hx)
    have outer : frame.outer.map (f .frame) = frame.outer.map (g .frame) := by
      cases ho : frame.outer with
      | none => rfl
      | some o =>
        have o' := h ⟨.frame, o⟩ (List.mem_append_right _ (by simp [ho]))
        simp only [Ref.rename_mk, Ref.mk.injEq, true_and] at o'
        simp only [Option.map_some, o']
    simp only [bindings, outer]
  refs_rename f frame := by
    obtain ⟨bs, outer⟩ := frame
    cases outer <;> simp [Refers.refs_rename]

/-! ## Operations that commute with renaming -/

/-- An operation that does not look at the numbers by which things are referred to. -/
def Equivariant {α β : Type} [Refers α] [Refers β] (g : α → β) : Prop :=
  ∀ (f : Renaming) (a : α), g (rename f a) = rename f (g a)

namespace Ref

/-- The renaming that exchanges two numbers of a kind. -/
def exchange (k : RefKind) (i j : Nat) : Renaming := Pi.mulSingle k (Equiv.swap i j)

/-- The exchange of two names takes the one to the other. -/
theorem exchange_self (k : RefKind) (i j : Nat) : rename (exchange k i j) ⟨k, i⟩ = ⟨k, j⟩ := by
  simp [exchange]

/-- Every other reference stays as it is. -/
theorem exchange_of_ne {k : RefKind} {i j : Nat} {x : Ref} (hi : x ≠ ⟨k, i⟩) (hj : x ≠ ⟨k, j⟩) :
    x.rename (exchange k i j) = x := by
  obtain ⟨k', l⟩ := x
  by_cases h : k' = k
  · subst h
    have li : l ≠ i := fun h => hi (by rw [h])
    have lj : l ≠ j := fun h => hj (by rw [h])
    simp [exchange, Equiv.swap_apply_of_ne_of_ne li lj]
  · simp [exchange, Pi.mulSingle_eq_of_ne h]

end Ref

/-- What such an operation makes refers to nothing that it was not given. -/
theorem Equivariant.refs_subset {α β : Type} [Refers α] [Refers β] {g : α → β} (h : Equivariant g) (a : α) :
    refs (g a) ⊆ refs a := by
  rintro ⟨k, i⟩ hx
  by_contra hn
  -- exchanged for a number that occurs nowhere, the reference would be another one in what is made
  obtain ⟨j, hj⟩ := Infinite.exists_notMem_finset ((refs a ++ refs (g a)).map Ref.index).toFinset
  have fresh {y : Ref} (hy : y ∈ refs a ++ refs (g a)) : y ≠ ⟨k, j⟩ := by
    rintro rfl
    exact hj (List.mem_toFinset.2 (List.mem_map.2 ⟨_, hy, rfl⟩))
  have same : rename (Ref.exchange k i j) a = a := by
    refine (Refers.rename_congr fun y hy => ?_).trans (Refers.rename_one a)
    have other : y ≠ ⟨k, i⟩ := by
      rintro rfl
      exact hn hy
    exact Ref.exchange_of_ne other (fresh (List.mem_append_left _ hy))
  have kept : rename (Ref.exchange k i j) (g a) = g a := by rw [← h, same]
  have found : Ref.rename (Ref.exchange k i j) ⟨k, i⟩ ∈ refs (g a) := by
    rw [← kept, Refers.refs_rename]
    exact List.mem_map_of_mem hx
  rw [Ref.exchange_self] at found
  exact fresh (List.mem_append_right _ found) rfl

end MiniLisp

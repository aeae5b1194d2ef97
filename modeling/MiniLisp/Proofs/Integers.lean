import Mathlib
import MiniLisp.Proofs.Prelude
import MiniLisp.Proofs.Settled

/-!
# Arithmetic on integers

What `+`, `-`, `*` and `/` come to on integers of 64 bits. The first three carry out an operation on what their
arguments stand for, and the outcome is the one integer of 64 bits that is congruent to the exact result modulo 2^64
(`Exactly`); so neither their order nor how they are grouped (`Grouping`) matters to `+` and `*`. A division takes exact
quotients, truncated toward zero, one after another (`DividesTo`); only the least integer over -1 has one that is too
large.

* `foldl_ofInt`: a fold of operations that wrap is an exact one, reduced once.
* `Grouping.comesTo`: calls of `+` or `*` within each other come to what one call on all the integers does.
* **Exact arithmetic** (`integer_arithmetic_is_exact`): all that the four do on integers, and that they take nothing but
  numbers.
-/

namespace MiniLisp

open Call (Yields)

/-! ## Folds of operations that wrap -/

/-- If an operation on 64 bits wraps an exact one, a fold of it wraps a fold of the exact one. -/
theorem foldl_ofInt {op : Int64 → Int64 → Int64} {exact : Int → Int → Int}
    (h : ∀ i j, .ofInt (exact i j) = op (.ofInt i) (.ofInt j)) (i : Int) (ns : List Int64) :
    ns.foldl op (.ofInt i) = .ofInt ((ns.map Int64.toInt).foldl exact i) := by
  rw [List.foldl_map]
  refine List.foldl_hom Int64.ofInt fun j n => ?_
  rw [h, Int64.ofInt_toInt]

theorem foldl_sub (i : Int) (js : List Int) : js.foldl (· - ·) i = i - js.sum := by
  induction js generalizing i with
  | nil => simp
  | cons j js ih => rw [List.foldl_cons, ih, List.sum_cons, Int.sub_sub]

namespace Arithmetic

variable {op : Int64 → Int64 → Int64} {onFloats : Float → Float → Float}

theorem numbers_ints (ns : List Int64) : numbers (ns.map .int) = .ok (ns.map .int) :=
  mapM_map_ok (g := number) (fun _ => rfl) ns

/-- Folding integers with an operation on numbers is folding them with the operation on integers. -/
theorem foldl_combine (n : Int64) (ns : List Int64) :
    (ns.map Number.int).foldl (Number.combine op onFloats) (.int n) = .int (ns.foldl op n) := by
  rw [List.foldl_map]
  exact List.foldl_hom Number.int fun _ _ => rfl

/-- A sum is taken modulo 2^64, once at the end as well as at every step. -/
theorem sum_ints (ns : List Int64) : sum (ns.map .int) = .ok (.int (.ofInt (ns.map Int64.toInt).sum)) := by
  rw [sum, numbers_ints, List.sum_eq_foldl, ← foldl_ofInt Int64.ofInt_add]
  exact congrArg (fun x => Except.ok (Number.toValue x)) (foldl_combine 0 ns)

theorem product_ints (ns : List Int64) : product (ns.map .int) = .ok (.int (.ofInt (ns.map Int64.toInt).prod)) := by
  rw [product, numbers_ints, List.prod_eq_foldl, ← foldl_ofInt Int64.ofInt_mul]
  exact congrArg (fun x => Except.ok (Number.toValue x)) (foldl_combine 1 ns)

theorem difference_ints (n : Int64) {ns : List Int64} (h : ns ≠ []) :
    difference ((n :: ns).map .int) = .ok (.int (.ofInt (n.toInt - (ns.map Int64.toInt).sum))) := by
  obtain ⟨k, ns, rfl⟩ := List.exists_cons_of_ne_nil h
  rw [difference, numbers_ints, ← foldl_sub, ← foldl_ofInt Int64.ofInt_sub, Int64.ofInt_toInt]
  exact congrArg (fun x => Except.ok (Number.toValue x)) (foldl_combine n (k :: ns))

/-- A difference of one number is its negation. -/
theorem difference_one (n : Int64) : difference [.int n] = .ok (.int (.ofInt (-n.toInt))) := by
  rw [Int64.ofInt_neg, Int64.ofInt_toInt, ← Int64.zero_sub]
  rfl

/-- Numbers are wanted before anything else. -/
theorem numbers_error {args : List Value} (h : ∃ v ∈ args, Convert.isNumber v = false) :
    numbers args = .error (.mismatch .number) := by
  refine mapM_eq_error (fun v fault hv => ?_) (h.imp fun v hv => ⟨hv.1, ?_⟩)
  · unfold number at hv
    split at hv <;> cases hv
    rfl
  · obtain ⟨-, hv⟩ := hv
    cases v <;> first | rfl | cases hv

end Arithmetic

/-! ## Sums, products and differences -/

/-- A builtin comes to the integer of 64 bits that is congruent to an exact one modulo 2^64. -/
def Exactly (b : Builtin) (ns : List Int64) (i : Int) : Prop :=
  ∃ n : Int64, Yields b (ns.map .int) (.ok (.int n)) ∧ n.toInt = i.bmod (2 ^ 64)

theorem Exactly.of_yields {b : Builtin} {ns : List Int64} {i : Int}
    (h : Yields b (ns.map .int) (.ok (.int (.ofInt i)))) : Exactly b ns i := ⟨.ofInt i, h, Int64.toInt_ofInt⟩

/-- The builtins that take any number of integers together, and what they make of them. -/
inductive Totals : Builtin → (List Int → Int) → Prop
  | add : Totals .add List.sum
  | multiply : Totals .multiply List.prod

namespace Totals

variable {b : Builtin} {total : List Int → Int} (h : Totals b total)
include h

theorem yields_iff (ns : List Int64) (r : Except EvalError Value) :
    Yields b (ns.map .int) r ↔ r = .ok (.int (.ofInt (total (ns.map Int64.toInt)))) := by
  cases h with
  | add => rw [Call.yields_iff (Call.accepts_any rfl _) fun _ => rfl, Arithmetic.sum_ints, eq_comm]
  | multiply => rw [Call.yields_iff (Call.accepts_any rfl _) fun _ => rfl, Arithmetic.product_ints, eq_comm]

theorem exactly (ns : List Int64) : Exactly b ns (total (ns.map Int64.toInt)) := .of_yields ((h.yields_iff ns _).2 rfl)

theorem perm {xs ys : List Int64} (hp : xs.Perm ys) (r : Except EvalError Value) :
    Yields b (xs.map .int) r ↔ Yields b (ys.map .int) r := by
  have same : total (xs.map Int64.toInt) = total (ys.map Int64.toInt) := by
    cases h with
    | add => exact (hp.map _).sum_eq
    | multiply => exact (hp.map _).prod_eq
  rw [h.yields_iff, h.yields_iff, same]

/-- The total of some integers, reduced to 64 bits, tells what they add to the total of more. -/
theorem append : ∃ op : Int64 → Int64 → Int64, ∀ ms ns : List Int64,
    .ofInt (total ((ms ++ ns).map Int64.toInt)) =
      op (.ofInt (total (ms.map Int64.toInt))) (.ofInt (total (ns.map Int64.toInt))) := by
  cases h with
  | add => exact ⟨(· + ·), fun ms ns => by rw [List.map_append, List.sum_append, Int64.ofInt_add]⟩
  | multiply => exact ⟨(· * ·), fun ms ns => by rw [List.map_append, List.prod_append, Int64.ofInt_mul]⟩

theorem one (n : Int64) : .ofInt (total ([n].map Int64.toInt)) = n := by
  cases h <;> simp

theorem special : SpecialForm.ofValue? (.symbol b.name) = none := by cases h <;> decide

end Totals

/-! ## Groups -/

/-- Operands that are integers or calls on such operands, and all the integers in them. -/
inductive Grouping (name : String) : List Value → List Int64 → Prop
  | none : Grouping name [] []
  | int {xs ns} (n : Int64) (h : Grouping name xs ns) : Grouping name (.int n :: xs) (n :: ns)
  | call {xs ys ms ns} (hx : Grouping name xs ms) (hy : Grouping name ys ns) :
      Grouping name (.list (.symbol name :: xs) :: ys) (ms ++ ns)

namespace Grouping

variable {m : Machine} {e : FrameId} {b : Builtin} {total : List Int → Int} {xs : List Value} {ns : List Int64}

/-- Each operand comes to an integer, and their total is that of all the integers in them. -/
theorem operands (h : Totals b total) (hb : m.lookup e b.name = some (.builtin b)) (hg : Grouping b.name xs ns) :
    ∃ ks : List Int64, List.Forall₂ (fun x v => ComesTo m e x (.ok v)) xs (ks.map .int) ∧
      Int64.ofInt (total (ks.map Int64.toInt)) = .ofInt (total (ns.map Int64.toInt)) := by
  obtain ⟨op, append⟩ := h.append
  induction hg with
  | none => exact ⟨[], .nil, rfl⟩
  | @int xs ns n _ ih =>
    obtain ⟨ks, operands, same⟩ := ih
    refine ⟨n :: ks, .cons (.literal rfl) operands, ?_⟩
    rw [← List.singleton_append, append, same, ← append, List.singleton_append]
  | @call xs ys ms ns _ _ ihx ihy =>
    obtain ⟨js, group, same⟩ := ihx
    obtain ⟨ks, operands, same'⟩ := ihy
    refine ⟨.ofInt (total (js.map Int64.toInt)) :: ks, .cons ?_ operands, ?_⟩
    · exact ComesTo.call hb h.special group ((h.yields_iff js _).2 rfl)
    · rw [← List.singleton_append, append, append ms, h.one, same, same']

/-- However the integers are grouped, a call comes to their total. -/
theorem comesTo (h : Totals b total) (hb : m.lookup e b.name = some (.builtin b)) (hg : Grouping b.name xs ns)
    {r : Except EvalError Value} (hr : Yields b (ns.map .int) r) :
    ComesTo m e (.list (.symbol b.name :: xs)) r := by
  obtain ⟨ks, operands, same⟩ := hg.operands h hb
  refine ComesTo.call hb h.special operands ((h.yields_iff ks r).2 ?_)
  rw [same, (h.yields_iff ns r).1 hr]

end Grouping

/-! ## Quotients -/

/-- The quotient is exact, truncated toward zero, but for the least integer over -1, which stays as it is. -/
def IsQuotient (n d q : Int64) : Prop :=
  d ≠ 0 ∧ if n = Int64.minValue ∧ d = -1 then q = Int64.minValue else q.toInt = n.toInt.tdiv d.toInt

/-- An integer divided by others in turn. -/
inductive DividesTo : Int64 → List Int64 → Int64 → Prop
  | whole (n : Int64) : DividesTo n [] n
  | over {n d q r : Int64} {ds : List Int64} (h : IsQuotient n d q) (hs : DividesTo q ds r) : DividesTo n (d :: ds) r

theorem isQuotient_div (n : Int64) {d : Int64} (h : d ≠ 0) : IsQuotient n d (n / d) := by
  refine ⟨h, ?_⟩
  split
  · rename_i least
    obtain ⟨rfl, rfl⟩ := least
    exact Int64.minValue_div_neg_one
  · rename_i other
    rcases not_and_or.1 other with hn | hd
    · exact Int64.toInt_div_of_ne_left n d hn
    · exact Int64.toInt_div_of_ne_right n d hd

namespace Arithmetic

/-- A division by anything but zero has a quotient, which wraps at the one pair where it is out of range. -/
theorem divide_int (n : Int64) {d : Int64} (h : d ≠ 0) : divide (.int n) (.int d) = .ok (.int (n / d)) := by
  rw [divide, Number.divide?_int n h]

/-- Divisions in turn stop at the first zero. -/
theorem foldlM_divide (n : Int64) (ds : List Int64) :
    (0 ∈ ds → (ds.map Number.int).foldlM divide (.int n) = .error .divisionByZero) ∧
      (0 ∉ ds → ∃ q, (ds.map Number.int).foldlM divide (.int n) = .ok (.int q) ∧ DividesTo n ds q) := by
  induction ds generalizing n with
  | nil => exact ⟨fun h => absurd h List.not_mem_nil, fun _ => ⟨n, rfl, .whole n⟩⟩
  | cons d ds ih =>
    rw [List.map_cons, List.foldlM_cons]
    by_cases hd : d = 0
    · subst hd
      exact ⟨fun _ => rfl, fun h => absurd List.mem_cons_self h⟩
    · rw [divide_int n hd]
      obtain ⟨zero, nonzero⟩ := ih (n / d)
      refine ⟨fun h => zero ((List.mem_cons.1 h).resolve_left (Ne.symm hd)), fun h => ?_⟩
      obtain ⟨q, divided, hq⟩ := nonzero fun hmem => h (List.mem_cons_of_mem d hmem)
      exact ⟨q, divided, .over (isQuotient_div n hd) hq⟩

/-- A chain of divisions goes on from the first number. -/
theorem quotient_ints (n : Int64) {ds : List Int64} (h : ds ≠ []) :
    quotient ((n :: ds).map .int) = ((ds.map Number.int).foldlM divide (.int n)).map Number.toValue := by
  obtain ⟨d, ds, rfl⟩ := List.exists_cons_of_ne_nil h
  rw [quotient, numbers_ints]
  rfl

theorem quotient_one (d : Int64) : quotient [.int d] = quotient [.int 1, .int d] := by
  refine Eq.trans ?_ (quotient_ints 1 (List.cons_ne_nil d [])).symm
  change (divide (.int 1) (.int d)).map Number.toValue = (divide (.int 1) (.int d) >>= Except.ok).map Number.toValue
  cases divide (.int 1) (.int d) <;> rfl

end Arithmetic

section

variable {n d : Int64} {ds : List Int64}

theorem yields_divide (x : Value) (xs : List Value) (r : Except EvalError Value) :
    Yields .divide (x :: xs) r ↔ Arithmetic.quotient (x :: xs) = r :=
  Call.yields_iff (Call.accepts_operands rfl x xs) fun _ => rfl

/-- A chain of divisions fails when a divisor is zero, wherever it stands, and divides step by step otherwise. -/
theorem yields_quotient (h : ds ≠ []) :
    (Yields .divide ((n :: ds).map .int) (.error .divisionByZero) ↔ 0 ∈ ds) ∧
      (0 ∉ ds → ∃ q, Yields .divide ((n :: ds).map .int) (.ok (.int q)) ∧ DividesTo n ds q) := by
  obtain ⟨zero, nonzero⟩ := Arithmetic.foldlM_divide n ds
  have iff (r : Except EvalError Value) :
      Yields .divide ((n :: ds).map .int) r ↔ Arithmetic.quotient ((n :: ds).map .int) = r := yields_divide _ _ r
  simp only [iff, Arithmetic.quotient_ints n h]
  refine ⟨⟨fun failed => by_contra fun hds => ?_, fun hds => by rw [zero hds]; rfl⟩, fun hds => ?_⟩
  · obtain ⟨q, divided, -⟩ := nonzero hds
    rw [divided] at failed
    cases failed
  · obtain ⟨q, divided, hq⟩ := nonzero hds
    exact ⟨q, by rw [divided]; rfl, hq⟩

/-- One integer alone divides 1. -/
theorem yields_quotient_one :
    (Yields .divide [.int d] (.error .divisionByZero) ↔ d = 0) ∧
      (d ≠ 0 → ∃ q, Yields .divide [.int d] (.ok (.int q)) ∧ DividesTo 1 [d] q) := by
  have iff (r : Except EvalError Value) : Yields .divide [.int d] r ↔ Yields .divide ([1, d].map .int) r := by
    rw [yields_divide, Arithmetic.quotient_one, ← yields_divide]
    rfl
  have divided := yields_quotient (n := 1) (List.cons_ne_nil d [])
  simp only [List.mem_singleton, ← iff] at divided
  rwa [eq_comm] at divided

end

/-- Where there is something that is not a number, that is what is wrong. -/
theorem yields_mismatch {b : Builtin} (hb : b ∈ [.add, .subtract, .multiply, .divide]) {args : List Value}
    (h : ∃ v ∈ args, Convert.isNumber v = false) : Yields b args (.error (.mismatch .number)) := by
  have failed := Arithmetic.numbers_error h
  obtain ⟨v, args, rfl⟩ := List.exists_cons_of_ne_nil (List.ne_nil_of_mem h.choose_spec.1)
  simp only [List.mem_cons, List.not_mem_nil, or_false] at hb
  rcases hb with rfl | rfl | rfl | rfl
  · refine (Call.yields_iff (Call.accepts_any rfl _) fun _ => rfl).2 ?_
    rw [Arithmetic.sum, failed]
    rfl
  · refine (Call.yields_iff (Call.accepts_operands rfl _ _) fun _ => rfl).2 ?_
    rw [Arithmetic.difference, failed]
    rfl
  · refine (Call.yields_iff (Call.accepts_any rfl _) fun _ => rfl).2 ?_
    rw [Arithmetic.product, failed]
    rfl
  · refine (Call.yields_iff (Call.accepts_operands rfl _ _) fun _ => rfl).2 ?_
    rw [Arithmetic.quotient, failed]

/-! ## All of it together -/

/-- **Arithmetic on integers is exact modulo 2^64.** The sum and the product of any integers are those of the numbers
they stand for, reduced to 64 bits; they are 0 and 1 where there are none, and the same in every order and however the
integers are grouped into calls. A difference of several is the first less the sum of the others, and of one its
opposite. A division takes truncated quotients in turn, from 1 where there is one integer only, and fails just when it
meets a zero. The one quotient that is too large, of the least integer and -1, is the least integer again. Whatever else
the arguments are, each of the four refuses them all if one is not a number. -/
theorem integer_arithmetic_is_exact :
    (∀ ns, Exactly .add ns (ns.map Int64.toInt).sum) ∧ (∀ ns, Exactly .multiply ns (ns.map Int64.toInt).prod) ∧
    Yields .add [] (.ok (.int 0)) ∧ Yields .multiply [] (.ok (.int 1)) ∧
    (∀ b ∈ [Builtin.add, .multiply],
      (∀ xs ys : List Int64, xs.Perm ys → ∀ r, Yields b (xs.map .int) r ↔ Yields b (ys.map .int) r) ∧
      ∀ m e, m.lookup e b.name = some (.builtin b) → ∀ xs ns, Grouping b.name xs ns →
        ∀ r, Yields b (ns.map .int) r → ComesTo m e (.list (.symbol b.name :: xs)) r) ∧
    (∀ n ns, ns ≠ [] → Exactly .subtract (n :: ns) (n.toInt - (ns.map Int64.toInt).sum)) ∧
    (∀ n, Exactly .subtract [n] (-n.toInt)) ∧
    (∀ n ds, ds ≠ [] → (Yields .divide ((n :: ds).map .int) (.error .divisionByZero) ↔ 0 ∈ ds) ∧
      (0 ∉ ds → ∃ q, Yields .divide ((n :: ds).map .int) (.ok (.int q)) ∧ DividesTo n ds q)) ∧
    (∀ d, (Yields .divide [.int d] (.error .divisionByZero) ↔ d = 0) ∧
      (d ≠ 0 → ∃ q, Yields .divide [.int d] (.ok (.int q)) ∧ DividesTo 1 [d] q)) ∧
    (∀ b ∈ [Builtin.add, .subtract, .multiply, .divide], ∀ args, (∃ v ∈ args, Convert.isNumber v = false) →
      Yields b args (.error (.mismatch .number))) := by
  refine ⟨Totals.add.exactly, Totals.multiply.exactly, (Totals.add.yields_iff [] _).2 rfl,
    (Totals.multiply.yields_iff [] _).2 rfl, fun b hb => ?_, fun n ns h => ?_, fun n => ?_,
    fun n ds => yields_quotient, fun d => yields_quotient_one, fun b hb args => yields_mismatch hb⟩
  · obtain ⟨total, h⟩ : ∃ total, Totals b total := by
      simp only [List.mem_cons, List.not_mem_nil, or_false] at hb
      rcases hb with rfl | rfl
      · exact ⟨_, .add⟩
      · exact ⟨_, .multiply⟩
    exact ⟨fun xs ys => h.perm, fun m e hb xs ns hg r => hg.comesTo h hb⟩
  · exact .of_yields ((Call.yields_iff (Call.accepts_operands rfl _ _) fun _ => rfl).2 (Arithmetic.difference_ints n h))
  · exact .of_yields ((Call.yields_iff (Call.accepts_operands rfl _ _) fun _ => rfl).2 (Arithmetic.difference_one n))

/-- A root binds the builtins by their names. -/
theorem lookup_add : (Interpreter.withRoot .empty).lookup 0 "+" = some (.builtin .add) := by
  obtain ⟨f, id, hroot⟩ := Interpreter.withRoot_root .empty
  exact (Machine.lookup_root hroot _).trans ((Interpreter.find?_newBindings _ _ _ _ (by decide)).trans rfl)

theorem integer_arithmetic_is_exact_at_the_limits :
    (∃ q, Yields .divide [.int Int64.minValue, .int (-1)] (.ok (.int q)) ∧ DividesTo Int64.minValue [-1] q) ∧
      (∃ n, Yields .subtract [.int Int64.minValue, .int 1] (.ok (.int n)) ∧
        n.toInt = (Int64.minValue.toInt - [(1 : Int64).toInt].sum).bmod (2 ^ 64)) ∧
      Yields .divide [.int 1, .int 0, .nil] (.error (.mismatch .number)) ∧
      ComesTo (Interpreter.withRoot .empty) 0
        (.list [.symbol "+", .list [.symbol "+", .int 1, .int 2], .list [.symbol "+", .int 3]]) (.ok (.int 6)) ∧
      (∃ q, Yields .divide [.int 7] (.ok (.int q)) ∧ DividesTo 1 [7] q) ∧
      (Yields .add [.int 1, .int 2] (.ok (.int 3)) ↔ Yields .add [.int 2, .int 1] (.ok (.int 3))) := by
  obtain ⟨-, -, -, -, either, several, -, divided, alone, refused⟩ := integer_arithmetic_is_exact
  obtain ⟨permuted, grouped⟩ := either .add (by decide)
  have grouping : Grouping "+" [.list [.symbol "+", .int 1, .int 2], .list [.symbol "+", .int 3]] [1, 2, 3] :=
    .call (.int 1 (.int 2 .none)) (.call (.int 3 .none) .none)
  exact ⟨(divided Int64.minValue [-1] (by decide)).2 (by decide), several Int64.minValue [1] (by decide),
    refused .divide (by decide) _ ⟨.nil, by simp, rfl⟩,
    grouped _ 0 lookup_add _ _ grouping _ ((Totals.add.yields_iff [1, 2, 3] _).2 rfl), (alone 7).2 (by decide),
    permuted [1, 2] [2, 1] (.swap 2 1 []) _⟩

end MiniLisp

import Mathlib
import MiniLisp.Builtin.Run
import MiniLisp.Proofs.Rounding

/-!
# How numbers compare

Two integers are compared as they are, but where an integer meets a double it is converted to the nearest one first.
This does no harm unless the other double is just that nearest one: every other double lies on the same side of both
(`Double.Nearest.compare_value`). So numbers appear in the order of the rational numbers they stand for, except that
an integer which is no double appears equal to the nearest one (`Number.order`).

* `run_comparison`: comparisons answer by the order in which numbers appear.
* `numbers_compare_exactly_unless_conflated`: what this comes to.
* `conflated_numbers_pass_for_equal`: two different integers that equal the same double.
-/

namespace MiniLisp

open Double (Nearest value)

/-! ## The order of doubles near a number -/

namespace Double

variable {x y : Float} {c : ℚ}

/-- The nearest double lies on the same side of another double as the number does. -/
theorem Nearest.compare_value (h : Nearest x c) (hy : y.isFinite = true) (exact : value y = value x → value y = c) :
    compare (value x) (value y) = compare c (value y) := by
  rcases lt_trichotomy (value x) (value y) with lt | same | gt
  · have : c < value y := by
      by_contra le
      have far := h.nearest y hy
      rw [abs_of_neg (by linarith), abs_of_nonpos (by linarith)] at far
      linarith
    rw [compare_lt_iff_lt.2 lt, compare_lt_iff_lt.2 this]
  · rw [← exact same.symm, same]
  · have : value y < c := by
      by_contra le
      have far := h.nearest y hy
      rw [abs_of_pos (by linarith), abs_of_nonneg (by linarith)] at far
      linarith
    rw [compare_gt_iff_gt.2 gt, compare_gt_iff_gt.2 this]

end Double

/-! ## The order of numbers -/

namespace Number

/-- The rational number that a number stands for. -/
def exact : Number → ℚ
  | int n => n.toInt
  | float x => value x

/-- Neither infinite nor not a number. -/
def Finite : Number → Prop
  | int _ => True
  | float x => x.isFinite = true

/-- One is an integer, the other the double nearest to it, and they are not equal. -/
def Conflated : Number → Number → Prop
  | int n, float x | float x, int n => Nearest x n.toInt ∧ value x ≠ n.toInt
  | _, _ => False

open Classical in
/-- The order in which two numbers appear: that of the numbers they stand for, unless they are conflated. -/
noncomputable def order (x y : Number) : Ordering := if Conflated x y then .eq else Ord.compare x.exact y.exact

variable {x y z : Number}

theorem Conflated.symm (h : Conflated x y) : Conflated y x := by
  cases x <;> cases y <;> exact h

theorem Conflated.exact_ne (h : Conflated x y) : x.exact ≠ y.exact := by
  cases x with
  | int n =>
    cases y with
    | int => cases h
    | float y => exact h.2.symm
  | float x =>
    cases y with
    | int n => exact h.2
    | float => cases h

theorem order_of_conflated (h : Conflated x y) : x.order y = .eq := if_pos h

theorem order_of_not_conflated (h : ¬Conflated x y) : x.order y = Ord.compare x.exact y.exact := if_neg h

theorem order_swap (x y : Number) : y.order x = (x.order y).swap := by
  by_cases h : Conflated x y
  · rw [order_of_conflated h, order_of_conflated h.symm]
    rfl
  · rw [order_of_not_conflated h, order_of_not_conflated fun h' => h h'.symm]
    exact Std.OrientedCmp.eq_swap

/-- The order is transitive where no numbers are conflated. -/
theorem order_trans (hxy : ¬Conflated x y) (hyz : ¬Conflated y z) (hxz : ¬Conflated x z) :
    ((x.order y).isLE = true → (y.order z).isLE = true → (x.order z).isLE = true) ∧
      ((x.order y).isEq = true → (y.order z).isEq = true → (x.order z).isEq = true) := by
  rw [order_of_not_conflated hxy, order_of_not_conflated hyz, order_of_not_conflated hxz]
  simp only [Ordering.isLE_iff_ne_gt, Ordering.isEq_iff_eq_eq, compare_eq_iff_eq, compare_le_iff_le]
  exact ⟨le_trans, Eq.trans⟩

/-- An integer is converted to the double nearest to it, which is where it appears among doubles. -/
theorem order_int_float (n : Int64) {x : Float} (hx : x.isFinite = true) :
    (int n).order (float x) = Ord.compare (value (int n).toFloat) (value x) := by
  have nearest := Double.nearest_toFloat n
  by_cases same : value x = value (int n).toFloat
  · rw [← same, compare_eq_iff_eq.2 rfl]
    by_cases exact : value x = n.toInt
    · rw [order_of_not_conflated fun h : Conflated (int n) (float x) => h.2 exact]
      exact compare_eq_iff_eq.2 exact.symm
    · exact order_of_conflated ⟨nearest.congr hx same, exact⟩
  · rw [order_of_not_conflated fun h : Conflated (int n) (float x) => same (h.1.unique nearest)]
    exact (nearest.compare_value hx fun h => absurd h same).symm

/-- A comparison tests the order in which numbers appear, if on integers and on doubles it tests their order. -/
theorem compare_eq {test : Ordering → Bool} {onInts : Int64 → Int64 → Bool} {onFloats : Float → Float → Bool}
    (ints : ∀ m n, onInts m n = test (Ord.compare m.toInt n.toInt))
    (floats : ∀ x y : Float, x.isFinite = true → y.isFinite = true →
      onFloats x y = test (Ord.compare (value x) (value y))) (hx : x.Finite) (hy : y.Finite) :
    compare onInts onFloats x y = test (x.order y) := by
  have rounded (n : Int64) : (int n).toFloat.isFinite = true := (Double.nearest_toFloat n).finite
  cases x with
  | int m =>
    cases y with
    | int n =>
      have order : (int m).order (int n) = Ord.compare m.toInt n.toInt := by
        rw [order_of_not_conflated id, ← cmp_eq_compare, ← cmp_eq_compare]
        exact Int.cast_strictMono.cmp_map_eq m.toInt n.toInt
      rw [order]
      exact ints m n
    | float y =>
      rw [order_int_float m hy]
      exact floats _ y (rounded m) hy
  | float x =>
    cases y with
    | int n =>
      rw [order_swap, order_int_float n hx, ← Std.OrientedCmp.eq_swap]
      exact floats x _ hx (rounded n)
    | float y =>
      rw [order_of_not_conflated id]
      exact floats x y hx hy

theorem equal_eq (hx : x.Finite) (hy : y.Finite) : x.equal y = (x.order y).isEq := by
  refine compare_eq (fun m n => ?_) (fun x y hx hy => Double.beq_eq hx hy) hx hy
  rw [Bool.eq_iff_iff, beq_iff_eq, Ordering.isEq_iff_eq_eq, compare_eq_iff_eq, Int64.toInt_inj]

theorem less_eq (hx : x.Finite) (hy : y.Finite) : x.less y = (x.order y).isLT := by
  refine compare_eq (fun m n => ?_) (fun x y hx hy => Double.decide_lt_eq hx hy) hx hy
  rw [Bool.eq_iff_iff, decide_eq_true_iff, Ordering.isLT_iff_eq_lt, compare_lt_iff_lt, Int64.lt_iff_toInt_lt]

theorem lessEqual_eq (hx : x.Finite) (hy : y.Finite) : x.lessEqual y = (x.order y).isLE := by
  refine compare_eq (fun m n => ?_) (fun x y hx hy => Double.decide_le_eq hx hy) hx hy
  rw [Bool.eq_iff_iff, decide_eq_true_iff, Ordering.isLE_iff_ne_gt, Int64.le_iff_toInt_le]
  exact compare_le_iff_le.symm

end Number

/-- What a comparison tells of the order of two numbers. -/
def Builtin.comparison? : Builtin → Option (Ordering → Bool)
  | .equal => some Ordering.isEq
  | .less => some Ordering.isLT
  | .lessEqual => some Ordering.isLE
  | .greater => some Ordering.isGT
  | .greaterEqual => some Ordering.isGE
  | _ => none

open Number (Conflated)

/-- A comparison answers by the order in which two numbers appear. -/
theorem run_comparison {b : Builtin} {test : Ordering → Bool} (h : b.comparison? = some test) {x y : Number}
    (hx : x.Finite) (hy : y.Finite) (ctx : Context) (m : Machine) :
    b.run ctx [x.toValue, y.toValue] m = some (.ok (.bool (test (x.order y))), m) := by
  have number (x : Number) : Arithmetic.number x.toValue = .ok x := by cases x <;> rfl
  have compares (holds : Number → Number → Bool) :
      Run.ofExcept (Arithmetic.comparison holds x.toValue y.toValue) m = some (.ok (.bool (holds x y)), m) := by
    rw [Arithmetic.comparison, number, number]
    rfl
  cases b <;> cases h
  case equal =>
    have same : x.toValue.equal y.toValue = x.equal y := by
      cases x <;> cases y <;> simp only [Number.toValue, Value.equal]
    rw [← Number.equal_eq hx hy, ← same]
    rfl
  case less =>
    rw [← Number.less_eq hx hy]
    exact compares _
  case lessEqual =>
    rw [← Number.lessEqual_eq hx hy]
    exact compares _
  case greater =>
    rw [← Ordering.isLT_swap, ← Number.order_swap, ← Number.less_eq hy hx]
    exact compares _
  case greaterEqual =>
    rw [← Ordering.isLE_swap, ← Number.order_swap, ← Number.lessEqual_eq hy hx]
    exact compares _

/-- A builtin answers true to two numbers. -/
def Builtin.Holds (ctx : Context) (m : Machine) (b : Builtin) (x y : Number) : Prop :=
  b.run ctx [x.toValue, y.toValue] m = some (.ok (.bool true), m)

theorem holds_iff {b : Builtin} {test : Ordering → Bool} (h : b.comparison? = some test) {x y : Number}
    (hx : x.Finite) (hy : y.Finite) (ctx : Context) (m : Machine) : b.Holds ctx m x y ↔ test (x.order y) = true := by
  rw [Builtin.Holds, run_comparison h hx hy]
  simp

/-- An integer that is a double is not conflated with any. -/
theorem not_conflated_of_value {n : Int64} {x : Float} (hx : x.isFinite = true) (exact : value x = n.toInt)
    (y : Float) : ¬Conflated (.int n) (.float y) := by
  rintro ⟨nearest, different⟩
  have near := nearest.nearest x hx
  rw [exact, sub_self, abs_zero] at near
  exact different (sub_eq_zero.1 (abs_nonpos_iff.1 near))

/-- **Numbers are compared exactly, unless an integer and a double are conflated.** The comparisons of two numbers,
integers of 64 bits and finite doubles in any combination, answer by the order of the rational numbers that these stand
for, just if it is not so that one is an integer that is no double and the other the double nearest to it, of two
equally near ones the one with the even mantissa: these two pass for equal. That a number is at most another is total
and agrees with equality; both are transitive where no two of three numbers are conflated. There is one nearest double,
to which an integer is converted, and integers of 53 bits, like all that are doubles, are not conflated. -/
theorem numbers_compare_exactly_unless_conflated {x y z : Number} (hx : x.Finite) (hy : y.Finite) (hz : z.Finite)
    (ctx : Context) (m : Machine) :
    ((∀ b test, Builtin.comparison? b = some test →
        b.run ctx [x.toValue, y.toValue] m = some (.ok (.bool (test (compare x.exact y.exact))), m)) ↔
      ¬Conflated x y) ∧
    (Conflated x y → ∀ b test, Builtin.comparison? b = some test →
      b.run ctx [x.toValue, y.toValue] m = some (.ok (.bool (test .eq)), m)) ∧
    (Builtin.lessEqual.Holds ctx m x y ∨ Builtin.lessEqual.Holds ctx m y x) ∧
    (Builtin.equal.Holds ctx m x y ↔ Builtin.lessEqual.Holds ctx m x y ∧ Builtin.lessEqual.Holds ctx m y x) ∧
    (¬Conflated x y → ¬Conflated y z → ¬Conflated x z →
      (Builtin.lessEqual.Holds ctx m x y → Builtin.lessEqual.Holds ctx m y z → Builtin.lessEqual.Holds ctx m x z) ∧
      (Builtin.equal.Holds ctx m x y → Builtin.equal.Holds ctx m y z → Builtin.equal.Holds ctx m x z)) ∧
    (∀ n : Int64, Nearest (Number.int n).toFloat n.toInt ∧
      ∀ f, Nearest f n.toInt → value f = value (Number.int n).toFloat) ∧
    ∀ n : Int64, (n.toInt.natAbs ≤ 2 ^ 53 ∨ ∃ f : Float, f.isFinite = true ∧ value f = n.toInt) →
      ∀ f, ¬Conflated (.int n) (.float f) := by
  refine ⟨⟨fun exact conflated => ?_, fun apart b test h => ?_⟩, fun conflated b test h => ?_, ?_, ?_,
    fun hxy hyz hxz => ?_, fun n => ⟨Double.nearest_toFloat n, fun f hf => hf.unique (Double.nearest_toFloat n)⟩,
    fun n h f => ?_⟩
  · have answers : Builtin.equal.Holds ctx m x y :=
      (holds_iff rfl hx hy ctx m).2 (by rw [Number.order_of_conflated conflated]; rfl)
    rw [Builtin.Holds, exact .equal _ rfl] at answers
    simp only [Option.some.injEq, Prod.mk.injEq, Except.ok.injEq, Value.bool.injEq, and_true,
      Ordering.isEq_iff_eq_eq, compare_eq_iff_eq] at answers
    exact conflated.exact_ne answers
  · rw [run_comparison h hx hy, Number.order_of_not_conflated apart]
  · rw [run_comparison h hx hy, Number.order_of_conflated conflated]
  · rw [holds_iff rfl hx hy, holds_iff rfl hy hx, Number.order_swap x y]
    cases x.order y <;> decide
  · rw [holds_iff rfl hx hy, holds_iff rfl hy hx, holds_iff rfl hx hy, Number.order_swap x y]
    cases x.order y <;> decide
  · rw [holds_iff rfl hx hy, holds_iff rfl hy hz, holds_iff rfl hx hz, holds_iff rfl hx hy, holds_iff rfl hy hz,
      holds_iff rfl hx hz]
    exact Number.order_trans hxy hyz hxz
  · rcases h with small | ⟨double, finite, exact⟩
    · exact not_conflated_of_value (Double.nearest_toFloat n).finite (Double.value_toFloat small) f
    · exact not_conflated_of_value finite exact f

/-- The double from which on not every integer is one. -/
def twoPow53 : Float := Float.ofBits 0x4340000000000000

theorem numbers_compare_exactly_unless_conflated_at_two_pow_53 :
    (∀ ctx m, Builtin.less.run ctx [.int 9007199254740991, .float twoPow53] m = some (.ok (.bool true), m)) ∧
      ∀ ctx m, Builtin.greater.run ctx [.int 9007199254740993, .float twoPow53] m = some (.ok (.bool false), m) := by
  have finite : Number.Finite (.float twoPow53) := by
    change twoPow53.isFinite = true
    decide +kernel
  refine ⟨fun ctx m => ?_, fun ctx m => ?_⟩
  · obtain ⟨exact, -, -, -, -, -, apart⟩ := numbers_compare_exactly_unless_conflated (x := .int 9007199254740991)
      trivial finite finite ctx m
    have order : (compare (Number.int 9007199254740991).exact (Number.float twoPow53).exact).isLT = true := by
      decide +kernel
    have answer := exact.2 (apart _ (.inl (by decide)) _) .less _ rfl
    rwa [order] at answer
  · obtain ⟨-, passes, -, -, -, nearest, -⟩ := numbers_compare_exactly_unless_conflated (x := .int 9007199254740993)
      trivial finite finite ctx m
    have conflated : Conflated (.int 9007199254740993) (.float twoPow53) := by
      have same : (Number.int 9007199254740993).toFloat = twoPow53 := by decide +kernel
      refine ⟨?_, by decide +kernel⟩
      rw [← same]
      exact (nearest _).1
    exact passes conflated .greater _ rfl

/-- An integer and a double that is not equal to it pass for equal, and so do the double and another integer. -/
theorem conflated_numbers_pass_for_equal :
    twoPow53.isFinite = true ∧ value twoPow53 = 9007199254740992 ∧
    (∀ ctx m, Builtin.equal.run ctx [.int 9007199254740993, .float twoPow53] m = some (.ok (.bool true), m)) ∧
    (∀ ctx m, Builtin.equal.run ctx [.int 9007199254740992, .float twoPow53] m = some (.ok (.bool true), m)) ∧
    ∀ ctx m, Builtin.equal.run ctx [.int 9007199254740993, .int 9007199254740992] m = some (.ok (.bool false), m) := by
  have equal (x y : Value) (ctx : Context) (m : Machine) :
      Builtin.equal.run ctx [x, y] m = some (.ok (.bool (x.equal y)), m) := rfl
  refine ⟨by decide +kernel, by decide +kernel, fun ctx m => ?_, fun ctx m => ?_, fun ctx m => ?_⟩ <;> rw [equal]
  · rw [show (Value.int 9007199254740993).equal (.float twoPow53) = true by decide +kernel]
  · rw [show (Value.int 9007199254740992).equal (.float twoPow53) = true by decide +kernel]
  · rw [show (Value.int 9007199254740993).equal (.int 9007199254740992) = false by decide +kernel]

end MiniLisp

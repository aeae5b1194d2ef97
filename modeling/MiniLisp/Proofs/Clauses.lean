import Mathlib
import MiniLisp.Proofs.Expansion
import MiniLisp.Proofs.Prelude
import MiniLisp.Proofs.Settled

/-!
# The clauses of cond

What the macro `cond` makes of its operands is one clause as an `if` and a call of `cond` with the others
(`condExpansion`). So the conditions are evaluated in turn, each in the frame that `cond` was called in, until one is
true (`firstTrue`).

* `Bindings.HasCond`, `Machine.HasCond`: what must mean what it means in a new root.
* `evaluate_cond`: one clause is expanded.
* **Clauses** (`cond_takes_the_first_true_clause`): the outcome is that of the first true clause.
-/

namespace MiniLisp

/-! ## What cond needs -/

/-- The macro `cond` of a root. -/
def condMacro (root : FrameId) (id : ClosureId) : Value := .closure id ⟨[], some "xs"⟩ condBody root true

def condForm (operands : List Value) : Value := .list (.symbol "cond" :: operands)

/-- The clause at the front as a form, with the others in a call of `cond`. -/
def clauseForm (condition x : Value) (others : List Value) : Value :=
  .list [.symbol "if", condition, x, condForm others]

/-- The failure on a form that is left over. -/
def oddForms : EvalError := .thrown (.text "odd number of forms to cond")

/-- The bindings of a root in which the body of `cond` means what it means in a new one. -/
structure Bindings.HasCond (bs : Bindings) : Prop where
  greater : bs.find? ">" = some (.builtin .greater)
  count : bs.find? "count" = some (.builtin .count)
  list : bs.find? "list" = some (.builtin .list)
  first : bs.find? "first" = some (.builtin .first)
  nth : bs.find? "nth" = some (.builtin .nth)
  throw : bs.find? "throw" = some (.builtin .throw)
  cons : bs.find? "cons" = some (.builtin .cons)
  rest : bs.find? "rest" = some (.builtin .rest)
  choose {f : Value} (h : bs.find? "if" = some f) : f.expands = false
  quote {f : Value} (h : bs.find? "quote" = some f) : f.expands = false

/-- In a frame `cond` is the macro of a root that has what it needs, and `if` is no macro. -/
structure Machine.HasCond (m : Machine) (e root : FrameId) (id : ClosureId) : Prop where
  nested : m.Nested
  inside : e < m.frames.size
  bound : ∃ bs : Bindings, m.frames[root]? = some ⟨bs, none⟩ ∧ bs.HasCond
  cond : m.lookup e "cond" = some (condMacro root id)
  choose {f : Value} (h : m.lookup e "if" = some f) : f.expands = false

/-- The machine with the frame of an expansion of `cond`. -/
def Machine.expanding (m : Machine) (root : FrameId) (operands : List Value) : Machine :=
  (m.addFrame [("xs", .list operands)] (some root)).2

theorem prints_expanding {m : Machine} (h : m.Prints) {root : FrameId} {operands : List Value} :
    (m.expanding root operands).Prints := h.of_atoms_eq rfl

namespace Machine.HasCond

variable {m n : Machine} {e root : FrameId} {id : ClosureId}

theorem of_alike {ctx : Context} (h : m.HasCond e root id) (hn : ctx.Alike n m) : n.HasCond e root id where
  nested e o f hf ho := h.nested e o f (hn.frames_eq ▸ hf) ho
  inside := hn.frames_eq ▸ h.inside
  bound := hn.frames_eq ▸ h.bound
  cond := (hn.lookup_eq e "cond").trans h.cond
  choose hf := h.choose (hn.lookup_eq e "if" ▸ hf)

/-- The root is there. -/
theorem root_lt (h : m.HasCond e root id) : root < m.frames.size := by
  obtain ⟨bs, hroot, -⟩ := h.bound
  exact (Array.getElem?_eq_some_iff.1 hroot).1

/-- An expansion leaves all that is needed as it was. -/
theorem expanding (h : m.HasCond e root id) (operands : List Value) :
    (m.expanding root operands).HasCond e root id where
  nested := h.nested.addFrame _ fun _ ho => Option.some.inj ho ▸ h.root_lt
  inside := by
    rw [Machine.expanding, Machine.addFrame, Array.size_push]
    exact Nat.lt_succ_of_lt h.inside
  bound := by
    obtain ⟨bs, hroot, hbs⟩ := h.bound
    exact ⟨bs, (ChangesOnly.addFrame m _ (some root) []).frame hroot (by simp), hbs⟩
  cond := (h.nested.lookup_addFrame _ _ h.inside).trans h.cond
  choose hf := h.choose (h.nested.lookup_addFrame _ _ h.inside ▸ hf)

end Machine.HasCond

/-! ## The body -/

/-- What the body of `cond` comes to. -/
def condExpansion : List Value → Except EvalError Value
  | [] => .ok .nil
  | [_] => .error oddForms
  | c :: x :: others => .ok (clauseForm c x others)

section Body

variable {m : Machine} {root : FrameId} {bs : Bindings} {operands : List Value}
  (hroot : m.frames[root]? = some ⟨bs, none⟩)

include hroot in
/-- In the frame of the macro its operands are bound, and the rest is as in the root. -/
theorem lookup_expanding (name : String) : (m.expanding root operands).lookup m.frames.size name =
    (Bindings.find? name [("xs", .list operands)]).or (bs.find? name) :=
  Machine.lookup_child Array.getElem?_push_size
    ((Machine.ChangesOnly.addFrame m _ (some root) []).frame hroot (by simp))
    (Array.getElem?_eq_some_iff.1 hroot).1 name

include hroot in
theorem lookup_expanding_of_ne {name : String} (hn : name ≠ "xs") :
    (m.expanding root operands).lookup m.frames.size name = bs.find? name := by
  rw [lookup_expanding hroot]
  simp [Bindings.find?, Ne.symm hn]

theorem lt_ofNat_iff {k n : Nat} (hk : k < 2 ^ 63) (hn : n < 2 ^ 63) : Int64.ofNat k < Int64.ofNat n ↔ k < n := by
  rw [Int64.lt_iff_toInt_lt, Int64.toInt_ofNat_of_lt hk, Int64.toInt_ofNat_of_lt hn]
  omega

include hroot in
theorem operands_comesTo : ComesTo (m.expanding root operands) m.frames.size (.symbol "xs") (.ok (.list operands)) :=
  .symbol (lookup_expanding hroot "xs")

variable (hb : bs.HasCond)

section

include hroot

/-- A call in the body of a builtin of the root. -/
theorem builtin_comesTo {name : String} {b : Builtin} (hname : bs.find? name = some (.builtin b)) (hn : name ≠ "xs")
    (hs : SpecialForm.ofValue? (.symbol name) = none) {xs vs : List Value} {r : Except EvalError Value}
    (hxs : List.Forall₂ (fun x v => ComesTo (m.expanding root operands) m.frames.size x (.ok v)) xs vs)
    (hr : Call.Yields b vs r) :
    ComesTo (m.expanding root operands) m.frames.size (.list (.symbol name :: xs)) r :=
  .call ((lookup_expanding_of_ne hroot hn).trans hname) hs hxs hr

include hb

/-- A quoted operand comes to the operand, as no macro has the name of `quote`. -/
theorem quoted_comesTo (v : Value) : ComesTo (m.expanding root operands) m.frames.size v.quoted (.ok v) :=
  .quoted (fun _ hg => hb.quote ((lookup_expanding_of_ne hroot (by decide : "quote" ≠ "xs")).symm.trans hg)) v

/-- Whether there are more than so many operands. -/
theorem more_comesTo {k : Nat} (hk : k < 2 ^ 63) (hl : operands.length < 2 ^ 63) :
    ComesTo (m.expanding root operands) m.frames.size
      (.list [.symbol ">", .list [.symbol "count", .symbol "xs"], .int (Int64.ofNat k)])
      (.ok (.bool (k < operands.length))) := by
  have count : ComesTo (m.expanding root operands) m.frames.size (.list [.symbol "count", .symbol "xs"])
      (.ok (.int (Int64.ofNat operands.length))) :=
    builtin_comesTo hroot hb.count (by decide) (by decide) (.cons (operands_comesTo hroot) .nil)
      ((Call.yields_iff rfl fun _ => rfl).2 rfl)
  refine builtin_comesTo hroot hb.greater (by decide) (by decide) (.cons count (.cons (.literal rfl) .nil)) ?_
  refine (Call.yields_iff rfl fun _ => rfl).2 ?_
  simp only [Arithmetic.comparison, Arithmetic.number, Number.ofValue?, Number.less, Number.compare, lt_ofNat_iff hk hl]

/-- The operands without the first two. -/
theorem others_comesTo : ComesTo (m.expanding root operands) m.frames.size
    (.list [.symbol "cons", (Value.symbol "cond").quoted, .list [.symbol "rest", .list [.symbol "rest", .symbol "xs"]]])
    (.ok (condForm operands.tail.tail)) := by
  have rest {x : Value} {vs : List Value} (hx : ComesTo (m.expanding root operands) m.frames.size x (.ok (.list vs))) :
      ComesTo (m.expanding root operands) m.frames.size (.list [.symbol "rest", x]) (.ok (.list vs.tail)) :=
    builtin_comesTo hroot hb.rest (by decide) (by decide) (.cons hx .nil) ((Call.yields_iff rfl fun _ => rfl).2 rfl)
  have both := rest (rest (operands_comesTo hroot))
  exact builtin_comesTo hroot hb.cons (by decide) (by decide)
    (.cons (quoted_comesTo hroot hb (.symbol "cond")) (.cons both .nil)) ((Call.yields_iff rfl fun _ => rfl).2 rfl)

/-- The form of the first clause, or the failure on a form that is left over. -/
theorem second_comesTo (hl : operands.length < 2 ^ 63) {c : Value} {more : List Value} (ho : operands = c :: more) :
    ComesTo (m.expanding root operands) m.frames.size
      (.list [.symbol "if", .list [.symbol ">", .list [.symbol "count", .symbol "xs"], .int 1],
        .list [.symbol "nth", .symbol "xs", .int 1], .list [.symbol "throw", .text "odd number of forms to cond"]])
      (match more with
        | [] => .error oddForms
        | x :: _ => .ok x) := by
  have choose {g : Value} (hg : (m.expanding root operands).lookup m.frames.size "if" = some g) : g.expands = false :=
    hb.choose ((lookup_expanding_of_ne hroot (by decide : "if" ≠ "xs")).symm.trans hg)
  refine .choose (fun _ => choose) (more_comesTo hroot hb (k := 1) (by decide) hl) (by simp) ?_
  subst ho
  cases more with
  | nil =>
    exact builtin_comesTo hroot hb.throw (by decide) (by decide) (.cons (.literal rfl) .nil)
      ((Call.yields_iff rfl fun _ => rfl).2 rfl)
  | cons x more =>
    have taken : decide (1 < (c :: x :: more).length) = true := by simp
    simp only [taken, Value.truthy, if_true]
    exact builtin_comesTo hroot hb.nth (by decide) (by decide)
      (.cons (operands_comesTo hroot) (.cons (.literal rfl) .nil))
      ((Call.yields_iff rfl fun _ => rfl).2 rfl)

/-- The body of `cond` comes to one clause, to nil or to a failure. -/
theorem condBody_comesTo (hl : operands.length < 2 ^ 63) :
    ComesTo (m.expanding root operands) m.frames.size condBody (condExpansion operands) := by
  have choose {g : Value} (hg : (m.expanding root operands).lookup m.frames.size "if" = some g) : g.expands = false :=
    hb.choose ((lookup_expanding_of_ne hroot (by decide : "if" ≠ "xs")).symm.trans hg)
  refine .choose (fun _ => choose) (more_comesTo hroot hb (k := 0) (by decide) hl) (by simp) ?_
  have name : ComesTo (m.expanding root operands) m.frames.size (Value.symbol "if").quoted (.ok (.symbol "if")) :=
    quoted_comesTo hroot hb _
  have list : (m.expanding root operands).lookup m.frames.size "list" = some (.builtin .list) :=
    (lookup_expanding_of_ne hroot (by decide : "list" ≠ "xs")).trans hb.list
  have first : ComesTo (m.expanding root operands) m.frames.size (.list [.symbol "first", .symbol "xs"])
      (.ok (operands.headD .nil)) :=
    builtin_comesTo hroot hb.first (by decide) (by decide) (.cons (operands_comesTo hroot) .nil)
      ((Call.yields_iff rfl fun _ => rfl).2 rfl)
  cases operands with
  | nil => exact .literal rfl
  | cons c more =>
    have taken : decide (0 < (c :: more).length) = true := by simp
    simp only [taken, Value.truthy, if_true]
    have second := second_comesTo hroot hb hl rfl
    cases more with
    | nil => exact .call_error list (by decide) (.cons name (.cons first .nil)) second _
    | cons x others =>
      exact .call list (by decide) (.cons name (.cons first (.cons second (.cons (others_comesTo hroot hb) .nil))))
        ((Call.yields_iff rfl fun _ => rfl).2 rfl)

end

end Body

/-! ## One expansion -/

section

variable {ctx c : Context} {m n : Machine} {e root : FrameId} {id : ClosureId} {operands : List Value}
  (hm : m.HasCond e root id) (hl : operands.length < 2 ^ 63)
include hm hl

/-- The call of the macro adds a frame, and comes to what its body comes to there. -/
theorem finish_cond (hp : c.records .trace = true → m.Prints) (hn : c.Alike n m) :
    ∃ k, Call.finish evaluate c (condMacro root id) operands n = some (condExpansion operands, k) ∧
      c.Alike k (m.expanding root operands) := by
  obtain ⟨bs, hroot, hbs⟩ := hm.bound
  obtain ⟨n₁, called, hn₁⟩ :=
    Context.record_alike (total_call (total_closureText ⟨[], some "xs"⟩ condBody true) operands) fun ht =>
      hn.prints (hp ht)
  have size : n₁.frames.size = m.frames.size := by rw [(Context.Alike.trans hn₁ hn).frames_eq]
  have entered : Call.enter ⟨[], some "xs"⟩ root operands n₁ =
      some (.ok m.frames.size, n₁.expanding root operands) := by
    have any : (⟨[], some "xs"⟩ : Params).arity.accepts operands.length = true :=
      Arity.accepts_atLeast.2 (Nat.zero_le operands.length)
    rw [Call.enter_eq any, size]
    rfl
  have framed : c.Alike (n₁.expanding root operands) (m.expanding root operands) :=
    (Context.Alike.trans hn₁ hn).addFrame _ _
  obtain ⟨k, body, hk⟩ := condBody_comesTo hroot hbs hl (c.holdCall (condMacro root id) operands m.frames.size condBody)
    (fun ht => prints_expanding (hp ht)) _ framed
  refine ⟨k, ?_, hk⟩
  rw [Call.finish, condMacro, Call.apply_closure, Run.bind_assoc]
  refine (Run.bind_ok called).trans ((congrFun (Run.bind_assoc _ _ _) n₁).trans ?_)
  exact (Run.bind_ok entered).trans body

/-- Where `cond` is as the prelude has it, its form is expanded to the conditional of its first clause. -/
theorem expand_cond (hp : ctx.records .trace = true → m.Prints) :
    ∃ k, expand evaluate ctx e (condForm operands) m = some (condExpansion operands, k) ∧
      ctx.Alike k (m.expanding root operands) := by
  have call : m.macroCall? e (condForm operands) = some (condMacro root id, operands) := by
    simp only [condForm, Machine.macroCall?, hm.cond]
    rfl
  obtain ⟨more, limit⟩ : ∃ more, maxExpansions = more + 1 := ⟨9999, rfl⟩
  obtain ⟨k, made, hk⟩ := finish_cond (c := (ctx.hold e (condForm operands)).holdValue (condForm operands)) hm hl hp
    (.refl _ m)
  rw [expand, limit, expandWithin_succ call]
  cases hx : condExpansion operands with
  | error fault =>
    rw [hx] at made
    exact ⟨k, Run.bind_error made, hk⟩
  | ok form =>
    rw [hx] at made
    obtain ⟨k', recorded, hk'⟩ : ∃ k', Recorded ctx .trace (Message.value "macroexpand produced " form) k k' ∧
        ctx.Alike k' k :=
      Context.record_alike (total_value "macroexpand produced " form) fun ht => hk.prints (prints_expanding (hp ht))
    have there := (hm.expanding operands).of_alike (Context.Alike.trans hk' hk)
    have settled : k'.macroCall? e form = none := by
      cases operands with
      | nil =>
        cases hx
        rfl
      | cons c more =>
        cases more with
        | nil => cases hx
        | cons x others =>
          cases hx
          exact Machine.macroCall?_eq_none (fun _ => there.choose) _
    refine ⟨k', (Run.bind_ok made).trans ((Run.bind_ok recorded).trans ?_), Context.Alike.trans hk' hk⟩
    exact expandWithin_of_none settled

/-- Before anything of the operands is evaluated, one clause is expanded. -/
theorem evaluate_cond (hp : ctx.records .trace = true → m.Prints) :
    ∃ k, ctx.Alike k (m.expanding root operands) ∧ evaluate ctx e (condForm operands) m =
      Run.bind (Run.ofExcept (condExpansion operands)) (evaluate ctx e) k := by
  obtain ⟨k, made, hk⟩ := expand_cond hm hl hp
  refine ⟨k, hk, ?_⟩
  rw [evaluate_eq_expand]
  exact Run.bind_congr made _

end

/-! ## All clauses -/

/-- Clauses as the operands of `cond`, perhaps with a form left over. -/
def condOperands (last : Option Value) : List (Value × Value) → List Value
  | [] => last.toList
  | (c, x) :: rest => c :: x :: condOperands last rest

/-- **The first true clause.** Conditions are evaluated in turn until one comes to something else than nil or false;
then the other form of its clause is evaluated, and that is all. Each clause that is looked at leaves the frame of its
expansion. -/
def firstTrue (ctx : Context) (e root : FrameId) (last : Option Value) : List (Value × Value) → Run Value
  | [] => do
    Run.modify fun m => m.expanding root last.toList
    match last with
    | none => return .nil
    | some _ => Run.fail oddForms
  | (c, x) :: rest => do
    Run.modify fun m => m.expanding root (condOperands last ((c, x) :: rest))
    let v ← evaluate (ctx.hold e (clauseForm c x (condOperands last rest))) e c
    if v.truthy then evaluate ctx e x else firstTrue ctx e root last rest

/-- Wherever a clause is looked at, `cond` means what it should; and where trace records are wanted, prints end. -/
def KeepsCond (ctx : Context) (e root : FrameId) (id : ClosureId) (last : Option Value) :
    List (Value × Value) → Machine → Prop
  | [], m => m.HasCond e root id ∧ (ctx.records .trace = true → m.Prints)
  | (c, x) :: rest, m => m.HasCond e root id ∧ (ctx.records .trace = true → m.Prints) ∧
    ∀ v m', evaluate (ctx.hold e (clauseForm c x (condOperands last rest))) e c
        (m.expanding root (condOperands last ((c, x) :: rest))) = some (.ok v, m') →
      v.truthy = false → KeepsCond ctx e root id last rest m'

section

variable {ctx : Context} {e root : FrameId} {id : ClosureId} {last : Option Value} {clauses : List (Value × Value)}
  {m : Machine}

theorem KeepsCond.hasCond (h : KeepsCond ctx e root id last clauses m) : m.HasCond e root id := by
  match clauses, h with
  | [], h => exact h.1
  | _ :: _, h => exact h.1

theorem KeepsCond.prints (h : KeepsCond ctx e root id last clauses m) (ht : ctx.records .trace = true) : m.Prints := by
  match clauses, h with
  | [], h => exact h.2 ht
  | _ :: _, h => exact h.2.1 ht

/-- Forms evaluated in machines that are alike. -/
theorem agree_evaluate {n : Machine} (h : ctx.Alike n m) (e : FrameId) (x : Value) :
    ctx.Agree (evaluate ctx e x n) (evaluate ctx e x m) := h.agree (simulation_untraced.evaluate rfl e x)

/-- No clause is left. -/
theorem agree_noClause (hk : KeepsCond ctx e root id last [] m) :
    ctx.Agree (evaluate ctx e (condForm last.toList) m) (firstTrue ctx e root last [] m) := by
  have few : last.toList.length < 2 ^ 63 := by cases last <;> simp
  obtain ⟨k, hk', expanded⟩ := evaluate_cond hk.hasCond few hk.prints
  rw [expanded]
  cases last with
  | none =>
    obtain ⟨k', done, hk''⟩ := ComesTo.literal (m := m.expanding root []) (e := e) (v := .nil) rfl ctx
      (fun ht => prints_expanding (hk.prints ht)) k hk'
    change ctx.Agree (evaluate ctx e .nil k) _
    rw [done]
    exact .some ⟨rfl, hk''⟩
  | some c => exact .some ⟨rfl, hk'⟩

/-- **The form comes to what its first true clause comes to**, by induction on the clauses. -/
theorem agree_firstTrue (hk : KeepsCond ctx e root id last clauses m)
    (hl : (condOperands last clauses).length < 2 ^ 63) :
    ctx.Agree (evaluate ctx e (condForm (condOperands last clauses)) m) (firstTrue ctx e root last clauses m) := by
  induction clauses generalizing m with
  | nil => exact agree_noClause hk
  | cons clause rest ih =>
    obtain ⟨c, x⟩ := clause
    obtain ⟨k, alike, expanded⟩ := evaluate_cond hk.hasCond hl hk.prints
    have noCall : k.macroCall? e (clauseForm c x (condOperands last rest)) = none :=
      Machine.macroCall?_eq_none (fun _ => ((hk.hasCond.expanding _).of_alike alike).choose) _
    obtain ⟨n, recorded, hn⟩ :
        ∃ n, Recorded ctx .trace (Message.value "apply " (clauseForm c x (condOperands last rest))) k n ∧
          ctx.Alike n k :=
      Context.record_alike (total_value "apply " (clauseForm c x (condOperands last rest))) fun ht =>
        alike.prints (prints_expanding (hk.prints ht))
    have one : [condForm (condOperands last rest)].length ≤ 1 := Nat.le_refl 1
    have chosen : evaluate ctx e (condForm (condOperands last ((c, x) :: rest))) m =
        Run.bind (evaluate (ctx.hold e (clauseForm c x (condOperands last rest))) e c)
          (fun v => evaluate ctx e (if v.truthy then x else condForm (condOperands last rest))) n :=
      expanded.trans (ComesTo.evaluate_choose one noCall recorded)
    rw [chosen]
    have inside : (ctx.hold e (clauseForm c x (condOperands last rest))).Alike n
        (m.expanding root (condOperands last ((c, x) :: rest))) := Context.Alike.trans hn alike
    refine Context.Agree.bind (agree_evaluate inside e c) fun v n' m' hv h => ?_
    cases ht : v.truthy with
    | true => exact agree_evaluate h e x
    | false =>
      have fewer : (condOperands last rest).length < 2 ^ 63 :=
        Nat.lt_trans (Nat.lt_add_of_pos_right (by decide : 0 < 2)) hl
      exact (agree_evaluate h e _).trans (ih (hk.2.2 v m' hv ht) fewer)

end

/-- Clauses at the front whose conditions come to nil or false, one after another, and the clauses that are left. -/
inductive PassedOver (ctx : Context) (e root : FrameId) (last : Option Value) :
    List (Value × Value) → Machine → List (Value × Value) → Machine → Prop
  | none {clauses m} : PassedOver ctx e root last clauses m clauses m
  | next {c x rest v m m₁ clauses m'}
      (hc : evaluate (ctx.hold e (clauseForm c x (condOperands last rest))) e c
        (m.expanding root (condOperands last ((c, x) :: rest))) = some (.ok v, m₁))
      (hv : v.truthy = false) (h : PassedOver ctx e root last rest m₁ clauses m') :
      PassedOver ctx e root last ((c, x) :: rest) m clauses m'

section

variable {ctx : Context} {e root : FrameId} {id : ClosureId} {last : Option Value}
  {clauses left rest : List (Value × Value)} {c x : Value} {m m' : Machine}

theorem firstTrue_cons (ctx : Context) (e root : FrameId) (last : Option Value) (c x : Value)
    (rest : List (Value × Value)) (m : Machine) : firstTrue ctx e root last ((c, x) :: rest) m =
      Run.bind (evaluate (ctx.hold e (clauseForm c x (condOperands last rest))) e c)
        (fun v => if v.truthy then evaluate ctx e x else firstTrue ctx e root last rest)
        (m.expanding root (condOperands last ((c, x) :: rest))) := rfl

/-- Clauses that are passed over leave the search to those after them. -/
theorem PassedOver.firstTrue_eq (h : PassedOver ctx e root last clauses m left m') :
    firstTrue ctx e root last clauses m = firstTrue ctx e root last left m' := by
  induction h with
  | none => rfl
  | next hc hv _ ih => rw [firstTrue_cons, Run.bind_ok hc, hv, ← ih]; rfl

/-- **cond takes the first true clause.** While `cond` means what it should wherever a clause is looked at, it comes to
what the first true clause comes to, but for trace records. All conditions before were evaluated in turn, and nothing
is evaluated after the form of that clause; without a true clause it is nil, or the failure on a form that is left over,
which is not evaluated; and a condition that fails is the outcome. (No list is longer than its count can say.) -/
theorem cond_takes_the_first_true_clause (hk : KeepsCond ctx e root id last clauses m)
    (hl : (condOperands last clauses).length < 2 ^ 63) :
    ctx.Agree (evaluate ctx e (condForm (condOperands last clauses)) m) (firstTrue ctx e root last clauses m) ∧
    (∀ m', PassedOver ctx e root last clauses m [] m' → firstTrue ctx e root last clauses m =
      some (match last with
        | none => .ok .nil
        | some _ => .error oddForms, m'.expanding root last.toList)) ∧
    ∀ c x rest m' r, PassedOver ctx e root last clauses m ((c, x) :: rest) m' →
      evaluate (ctx.hold e (clauseForm c x (condOperands last rest))) e c
        (m'.expanding root (condOperands last ((c, x) :: rest))) = r →
      (∀ v n, r = some (.ok v, n) → v.truthy = true →
        firstTrue ctx e root last clauses m = evaluate ctx e x n) ∧
      (∀ fault n, r = some (.error fault, n) → firstTrue ctx e root last clauses m = some (.error fault, n)) ∧
      (r = none → firstTrue ctx e root last clauses m = none) := by
  refine ⟨agree_firstTrue hk hl, fun m' h => ?_, fun c x rest m' r h hr => ?_⟩
  · rw [h.firstTrue_eq]
    cases last <;> rfl
  · rw [h.firstTrue_eq, firstTrue_cons]
    refine ⟨fun v n hv ht => ?_, fun fault n hf => Run.bind_error (hr.trans hf), fun hn => ?_⟩
    · rw [Run.bind_ok (hr.trans hv), if_pos ht]
    · unfold Run.bind
      rw [hr, hn]

end

/-! ## New roots -/

namespace Interpreter

variable {m m' : Machine}

theorem hasCond (root : FrameId) (f g h : Value) : (newBindings root f g h).HasCond := by
  have others {name : String} (hn : name ∉ ["not", "load-file", "cond"]) := find?_newBindings root f g h hn
  have leaves (s : SpecialForm) {v : Value} (hv : (newBindings root f g h).find? s.name = some v) :
      v.expands = false := by
    cases (leavesForms_newBindings root f g h s).symm.trans hv
  exact ⟨(others (by decide)).trans rfl, (others (by decide)).trans rfl, (others (by decide)).trans rfl,
    (others (by decide)).trans rfl, (others (by decide)).trans rfl, (others (by decide)).trans rfl,
    (others (by decide)).trans rfl, (others (by decide)).trans rfl, leaves .choose, leaves .quote⟩

theorem nested_define (h : m.Nested) (root : FrameId) (d : Definition) : (m.define root d).Nested := by
  unfold Machine.define
  split <;> exact Machine.Nested.bind h root d.name _

/-- A new root leaves the machine nested. -/
theorem nested_withRoot (h : m.Nested) : (withRoot m).Nested :=
  nested_define (nested_define (nested_define (h.addFrame _ fun _ (ho : none = some _) => nomatch ho) _ _) _ _) _ _

/-- `cond` works in a new root. -/
theorem hasCond_withRoot (hm : m.Nested) (h : m'.Like (withRoot m)) :
    m'.HasCond m.frames.size m.frames.size (m.closures + 3) := by
  obtain ⟨f, id, hroot⟩ := withRoot_root m
  have nested := nested_withRoot hm
  rw [← h.frames_eq] at hroot
  have leaves := leavesForms_newBindings m.frames.size f (loader m.frames.size id)
    (.closure (m.closures + 3) ⟨[], some "xs"⟩ condBody m.frames.size true)
  refine ⟨fun e o f hf => nested e o f (h.frames_eq ▸ hf), (Array.getElem?_eq_some_iff.1 hroot).1,
    ⟨_, hroot, hasCond _ _ _ _⟩, (Machine.lookup_root hroot _).trans ?_, fun {g} hg => ?_⟩
  · simp [newBindings, Bindings.find?_insert, condMacro]
  · cases (leaves .choose).symm.trans ((Machine.lookup_root hroot _).symm.trans hg)

end Interpreter

/-- Two clauses, the second of which is true. -/
def twoClauses : List (Value × Value) := [(.bool false, .int 1), (.bool true, .int 2)]

theorem nested_empty : Machine.empty.Nested := fun _ _ _ hf => nomatch hf

/-- Without trace records a literal leaves the machine as it is. -/
theorem evaluate_silent {ctx : Context} (hc : ctx.recorded = none) {v : Value} (hv : v.isLiteral = true) (e : FrameId)
    (m : Machine) : evaluate ctx e v m = some (.ok v, m) := by
  have noCall : m.macroCall? e v = none := by cases v <;> first | rfl | cases hv
  exact (Evaluates.expanded (.done noCall) (.literal hv (recorded_of_none hc _ _ m))).run

theorem keepsCond_twoClauses {m : Machine} (hm : m.HasCond 0 0 3) :
    KeepsCond firstHeld 0 0 3 (some .nil) twoClauses m := by
  refine ⟨hm, (fun ht => nomatch ht), fun v n hv _ => ?_⟩
  cases (evaluate_silent rfl rfl 0 _).symm.trans hv
  refine ⟨hm.expanding _, (fun ht => nomatch ht), fun v n hv ht => ?_⟩
  cases (evaluate_silent rfl rfl 0 _).symm.trans hv
  cases ht

theorem cond_takes_the_first_true_clause_second :
    ∃ n, evaluate firstHeld 0 (condForm (condOperands (some .nil) twoClauses)) (Interpreter.withRoot .empty) =
      some (.ok (.int 2), n) := by
  have hm := Interpreter.hasCond_withRoot nested_empty (.refl (Interpreter.withRoot .empty))
  obtain ⟨agree, -, clause⟩ := cond_takes_the_first_true_clause (keepsCond_twoClauses hm) (by decide)
  have passed :
      PassedOver firstHeld 0 0 (some .nil) twoClauses (Interpreter.withRoot .empty) [(.bool true, .int 2)] _ :=
    .next (evaluate_silent rfl rfl 0 _) rfl .none
  have taken := (clause _ _ _ _ _ passed (evaluate_silent rfl rfl 0 _)).1 _ _ rfl rfl
  rw [taken, evaluate_silent (v := .int 2) rfl rfl] at agree
  cases h : evaluate firstHeld 0 (condForm (condOperands (some .nil) twoClauses)) (Interpreter.withRoot .empty) with
  | none => rw [h] at agree; cases agree
  | some r =>
    rw [h] at agree
    obtain ⟨r, n⟩ := r
    cases agree with
    | some same =>
      obtain ⟨rfl, -⟩ := same
      exact ⟨n, rfl⟩

end MiniLisp

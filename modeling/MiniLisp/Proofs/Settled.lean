import Mathlib
import MiniLisp.Proofs.Swap

/-!
# Settled outcomes

Some calls and forms come to the same whatever else there is: a builtin that looks at its arguments only
(`Call.Yields`), and a form that comes to an outcome in one machine, which changes in nothing but trace records
(`ComesTo`). Where trace records are wanted, prints must end, or there is no outcome. A form made of such parts comes to
what they give: a call of a builtin (`ComesTo.call`), one with an operand that fails (`ComesTo.call_error`), a choice
(`ComesTo.choose`).
-/

namespace MiniLisp

/-! ## Arguments taken one after another -/

section

variable {α β ε : Type} {g : α → Except ε β} {as : List α} {bs : List β} {fault : ε}

/-- A list is mapped without a fault when each of its elements is. -/
theorem mapM_eq_ok_iff : as.mapM g = .ok bs ↔ List.Forall₂ (fun a b => g a = .ok b) as bs := by
  constructor
  · intro h
    induction as generalizing bs with
    | nil =>
      cases h
      exact .nil
    | cons a as ih =>
      rw [List.mapM_cons] at h
      cases ha : g a with
      | error fault =>
        rw [ha] at h
        cases h
      | ok b =>
        cases hs : as.mapM g with
        | error fault =>
          rw [ha, hs] at h
          cases h
        | ok bs =>
          rw [ha, hs] at h
          cases h
          exact .cons ha (ih hs)
  · intro h
    induction h with
    | nil => rfl
    | cons ha _ ih =>
      rw [List.mapM_cons, ha, ih]
      rfl

theorem mapM_map_ok {γ : Type} {f : γ → α} {f' : γ → β} (h : ∀ c, g (f c) = .ok (f' c)) (cs : List γ) :
    (cs.map f).mapM g = .ok (cs.map f') := by
  refine mapM_eq_ok_iff.2 ?_
  rw [List.forall₂_map_left_iff, List.forall₂_map_right_iff]
  exact List.forall₂_same.2 fun c _ => h c

/-- Where there is one way to fail only, it is enough that some element does. -/
theorem mapM_eq_error (only : ∀ a fault', g a = .error fault' → fault' = fault)
    (h : ∃ a ∈ as, g a = .error fault) : as.mapM g = .error fault := by
  induction as with
  | nil => simp at h
  | cons a as ih =>
    rw [List.mapM_cons]
    cases ha : g a with
    | error fault' =>
      cases only a fault' ha
      rfl
    | ok b =>
      have further : ∃ a ∈ as, g a = .error fault := by
        obtain ⟨c, hc, failed⟩ := h
        rcases List.mem_cons.1 hc with rfl | hc
        · cases ha.symm.trans failed
        · exact ⟨c, hc, failed⟩
      rw [ih further]
      rfl

end

/-! ## Calls of builtins that look at their arguments only -/

namespace Call

variable {ctx : Context} {b : Builtin} {args : List Value} {r r' : Except EvalError Value} {m n : Machine}

/-- What every call of a builtin with these arguments comes to, whatever the machine is, which changes in nothing but
trace records. Where such records are wanted, prints must end. -/
def Yields (b : Builtin) (args : List Value) (r : Except EvalError Value) : Prop :=
  ∀ (ctx : Context) (m : Machine), (ctx.records .trace = true → m.Prints) →
    ∃ n, builtin ctx b args m = some (r, n) ∧ ctx.Alike n m

/-- The outcome of a call, if there is one. -/
theorem builtin_outcome (hn : b.arity.accepts args.length = true) (hr : b.run ctx args = Run.ofExcept r')
    (h : builtin ctx b args m = some (r, n)) : r = r' := by
  unfold builtin at h
  rw [checkCount, if_pos hn] at h
  obtain ⟨k, -, h⟩ := of_record h
  have ran : b.run ctx args k = some (r', k) := by rw [hr]; rfl
  cases r' with
  | ok v =>
    obtain ⟨k', -, h⟩ := of_record ((Run.observe_ok ran).symm.trans h)
    cases h
    rfl
  | error fault =>
    obtain ⟨k', -, h⟩ := of_record ((Run.observe_error ran).symm.trans h)
    cases h
    rfl

theorem accepts_any (h : b.arity = .atLeast 0) (xs : List Value) : b.arity.accepts xs.length = true := by
  rw [h, Arity.accepts_atLeast]
  exact Nat.zero_le _

theorem accepts_operands (h : b.arity = .atLeast 1) (x : Value) (xs : List Value) :
    b.arity.accepts (x :: xs).length = true := by
  rw [h, Arity.accepts_atLeast]
  exact Nat.le_add_left 1 xs.length

/-- A builtin that depends on its arguments alone has one outcome for them. -/
theorem yields_iff (hn : b.arity.accepts args.length = true) (hr : ∀ ctx, b.run ctx args = Run.ofExcept r') :
    Yields b args r ↔ r' = r := by
  constructor
  · intro h
    obtain ⟨n, hn', -⟩ := h firstHeld .empty (fun ht => nomatch ht)
    exact (builtin_outcome hn (hr firstHeld) hn').symm
  · rintro rfl ctx m hp
    exact builtin_settles hn hp (hr ctx)

end Call

/-! ## Forms -/

/-- What a form comes to in machines like this one, which changes in nothing but trace records. -/
def ComesTo (m : Machine) (e : FrameId) (x : Value) (r : Except EvalError Value) : Prop :=
  ∀ c : Context, (c.records .trace = true → m.Prints) → ∀ n, c.Alike n m →
    ∃ k, evaluate c e x n = some (r, k) ∧ c.Alike k m

section

variable {m : Machine} {e : FrameId} {x v : Value} {xs vs : List Value} {r : Except EvalError Value}
  {fault : EvalError} {c : Context} {n : Machine}

namespace ComesTo

/-- What passes in every context comes to its value. -/
theorem of_passes (h : ∀ c, Context.Passes c m (evaluate c e x) v) : ComesTo m e x (.ok v) := by
  intro c hp n hn
  obtain ⟨k, hk, -, same⟩ := h c n hn Run.pure (.inr fun ht => hn.prints (hp ht))
  have whole : Run.bind (evaluate c e x) Run.pure n = evaluate c e x n := congrFun (bind_pure (evaluate c e x)) n
  exact ⟨k, whole.symm.trans same, hk⟩

theorem symbol {name : String} (h : m.lookup e name = some v) : ComesTo m e (.symbol name) (.ok v) :=
  of_passes fun _ => passes_symbol h

theorem literal (h : v.isLiteral = true) : ComesTo m e v (.ok v) := of_passes fun _ => passes_literal h

theorem quoted (h : ∀ g, m.lookup e "quote" = some g → g.expands = false) (v : Value) :
    ComesTo m e v.quoted (.ok v) := of_passes fun _ => passes_quoted h v

/-- Elements that come to values are evaluated to these, one after the other. -/
theorem each (h : List.Forall₂ (fun x v => ComesTo m e x (.ok v)) xs vs) (hp : c.records .trace = true → m.Prints)
    (hn : c.Alike n m) : ∃ k, Step.each evaluate c e xs n = some (.ok vs, k) ∧ c.Alike k m := by
  induction h generalizing c n with
  | nil => exact ⟨n, rfl, hn⟩
  | cons hx _ ih =>
    obtain ⟨n₁, first, hn₁⟩ := hx c hp n hn
    obtain ⟨n₂, rest, hn₂⟩ := ih (c := c.holdValue _) hp hn₁
    exact ⟨n₂, (Run.bind_ok first).trans (Run.bind_ok rest), hn₂⟩

/-- Of some forms the first one to fail is the outcome. -/
theorem each_error (h : List.Forall₂ (fun x v => ComesTo m e x (.ok v)) xs vs) (hx : ComesTo m e x (.error fault))
    (after : List Value) (hp : c.records .trace = true → m.Prints) (hn : c.Alike n m) :
    ∃ k, Step.each evaluate c e (xs ++ x :: after) n = some (.error fault, k) ∧ c.Alike k m := by
  induction h generalizing c n with
  | nil =>
    obtain ⟨n₁, failed, hn₁⟩ := hx c hp n hn
    exact ⟨n₁, Run.bind_error failed, hn₁⟩
  | cons hy _ ih =>
    obtain ⟨n₁, first, hn₁⟩ := hy c hp n hn
    obtain ⟨n₂, failed, hn₂⟩ := ih (c := c.holdValue _) hp hn₁
    exact ⟨n₂, (Run.bind_ok first).trans (Run.bind_error failed), hn₂⟩

section Call

variable {name : String} {b : Builtin} (hb : m.lookup e name = some (.builtin b))
  (hs : SpecialForm.ofValue? (.symbol name) = none)
include hb

theorem macroCall?_builtin (hn : c.Alike n m) (operands : List Value) :
    n.macroCall? e (.list (.symbol name :: operands)) = none := by
  refine Machine.macroCall?_eq_none (fun f hf => ?_) operands
  cases hb.symm.trans (hn.lookup_eq e name ▸ hf)
  rfl

include hs

/-- A call of a builtin by its name. -/
theorem call (h : List.Forall₂ (fun x v => ComesTo m e x (.ok v)) xs vs) (hr : Call.Yields b vs r) :
    ComesTo m e (.list (.symbol name :: xs)) r := by
  intro c hp n hn
  obtain ⟨n₁, recorded, hn₁⟩ :=
    Context.record_alike (total_value "apply " (.list (.symbol name :: xs))) fun ht => hn.prints (hp ht)
  have all : List.Forall₂ (fun x v => ComesTo m e x (.ok v)) (.symbol name :: xs) (.builtin b :: vs) :=
    .cons (symbol hb) h
  obtain ⟨n₂, elements, hn₂⟩ := each (c := c.hold e (.list (.symbol name :: xs))) all hp (hn₁.trans hn)
  obtain ⟨n₃, called, hn₃⟩ := hr (c.hold e (.list (.symbol name :: xs))) n₂ fun ht => hn₂.prints (hp ht)
  refine ⟨n₃, ?_, Context.Alike.trans hn₃ hn₂⟩
  rw [Call.evaluate_call (macroCall?_builtin hb hn xs) hs recorded elements, Call.inPlace, Call.apply_builtin,
    bind_done]
  exact called

/-- A call with an operand that fails. -/
theorem call_error (h : List.Forall₂ (fun x v => ComesTo m e x (.ok v)) xs vs) (hx : ComesTo m e x (.error fault))
    (after : List Value) : ComesTo m e (.list (.symbol name :: (xs ++ x :: after))) (.error fault) := by
  intro c hp n hn
  obtain ⟨n₁, recorded, hn₁⟩ :=
    Context.record_alike (total_value "apply " (.list (.symbol name :: (xs ++ x :: after)))) fun ht => hn.prints (hp ht)
  have before : List.Forall₂ (fun x v => ComesTo m e x (.ok v)) (.symbol name :: xs) (.builtin b :: vs) :=
    .cons (symbol hb) h
  obtain ⟨n₂, failed, hn₂⟩ :=
    each_error (c := c.hold e (.list (.symbol name :: (xs ++ x :: after)))) before hx after hp (hn₁.trans hn)
  exact ⟨n₂, Call.evaluate_call_fails (macroCall?_builtin hb hn _) hs recorded failed, hn₂⟩

end Call

/-- A choice evaluates its condition, and then the branch that is taken in its own place. -/
theorem evaluate_choose {condition consequent : Value} {rest : List Value} (hl : rest.length ≤ 1)
    (hc : n.macroCall? e (.list (.symbol "if" :: condition :: consequent :: rest)) = none) {n₁ : Machine}
    (hr : Recorded c .trace (Message.value "apply " (.list (.symbol "if" :: condition :: consequent :: rest))) n n₁) :
    evaluate c e (.list (.symbol "if" :: condition :: consequent :: rest)) n =
      Run.bind (evaluate (c.hold e (.list (.symbol "if" :: condition :: consequent :: rest))) e condition)
        (fun v => evaluate c e (if v.truthy then consequent else rest.headD .nil)) n₁ := by
  have special : SpecialForm.ofValue? (.symbol "if") = some .choose := by decide
  rw [evaluate_settled hc, Step.expanded_special special, Run.bind_assoc]
  refine (Run.bind_ok hr).trans ?_
  rw [Step.special_choose _ _ _ hl, Run.bind_assoc]
  rfl

/-- A choice comes to what the branch comes to that is taken. -/
theorem choose (hif : ∀ g, m.lookup e "if" = some g → g.expands = false) {condition consequent : Value}
    (hx : ComesTo m e condition (.ok v)) {rest : List Value} (hl : rest.length ≤ 1)
    (hr : ComesTo m e (if v.truthy then consequent else rest.headD .nil) r) :
    ComesTo m e (.list (.symbol "if" :: condition :: consequent :: rest)) r := by
  intro c hp n hn
  have noCall := Machine.macroCall?_eq_none (fun g hg => hif g (hn.lookup_eq e "if" ▸ hg))
    (condition :: consequent :: rest)
  obtain ⟨n₁, recorded, hn₁⟩ := Context.record_alike
    (total_value "apply " (.list (.symbol "if" :: condition :: consequent :: rest))) fun ht => hn.prints (hp ht)
  obtain ⟨n₂, chosen, hn₂⟩ :=
    hx (c.hold e (.list (.symbol "if" :: condition :: consequent :: rest))) hp n₁ (hn₁.trans hn)
  obtain ⟨n₃, taken, hn₃⟩ := hr c hp n₂ hn₂
  exact ⟨n₃, (evaluate_choose hl noCall recorded).trans ((Run.bind_ok chosen).trans taken), hn₃⟩

end ComesTo

end

end MiniLisp

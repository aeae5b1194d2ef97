import Mathlib
import MiniLisp.Proofs.Follow

/-!
# Builtins at work on machines that agree

Every call of an ordinary builtin is followed by the same call with related arguments on a machine that agrees
(`Follows.builtin`).
-/

namespace MiniLisp

open Refers (rename refs)
open World (Related)

namespace Follows

variable {o : Origin} {α β : Type} {R : World → α → β → Prop} {W : World} {ctx ctx' : Context} {args args' : List Value}

/-! ## Counts of arguments -/

/-- What is done if the count of arguments is accepted. -/
theorem counted {name : String} {arity : Arity} {x : Run α} {y : Run β} (h : W.Rel args args')
    (hx : arity.accepts args.length = true → Follows o R W x y) :
    Follows o R W (Run.bind (Call.checkCount name arity args) fun _ => x)
      (Run.bind (Call.checkCount name arity args') fun _ => y) := by
  by_cases ha : arity.accepts args.length = true
  · simp only [Call.checkCount, h.length_eq, if_pos ha]
    exact hx ha
  · simp only [Call.checkCount, h.length_eq, if_neg ha]
    exact fail (.of_nil rfl rfl)

section

variable {x : List Value → Run α} {y : List Value → Run β} (h : W.Rel args args')
include h

/-- Arguments that count one on one side count one on the other. -/
theorem one (ha : (Arity.exactly 1).accepts args.length = true)
    (hx : ∀ v v', W.Rel v v' → Follows o R W (x [v]) (y [v'])) : Follows o R W (x args) (y args') := by
  obtain ⟨v, rfl⟩ := List.length_eq_one_iff.1 (Arity.accepts_exactly.1 ha)
  obtain ⟨v', rest, rfl, hv, hr⟩ := h.of_cons
  rw [hr.of_nil_list]
  exact hx v v' hv

theorem two (ha : (Arity.exactly 2).accepts args.length = true)
    (hx : ∀ v w v' w', W.Rel v v' → W.Rel w w' → Follows o R W (x [v, w]) (y [v', w'])) :
    Follows o R W (x args) (y args') := by
  obtain ⟨v, w, rfl⟩ := List.length_eq_two.1 (Arity.accepts_exactly.1 ha)
  obtain ⟨v', rest, rfl, hv, hr⟩ := h.of_cons
  obtain ⟨w', rest, rfl, hw, hr⟩ := hr.of_cons
  rw [hr.of_nil_list]
  exact hx v w v' w' hv hw

theorem oneOrMore (ha : (Arity.atLeast 1).accepts args.length = true)
    (hx : ∀ v vs v' vs', W.Rel v v' → W.Rel vs vs' → Follows o R W (x (v :: vs)) (y (v' :: vs'))) :
    Follows o R W (x args) (y args') := by
  obtain ⟨v, vs, rfl⟩ := List.exists_cons_of_length_pos (Arity.accepts_atLeast.1 ha)
  obtain ⟨v', vs', rfl, hv, hs⟩ := h.of_cons
  exact hx v vs v' vs' hv hs

end

/-! ## Single builtins -/

/-- What `deref`, `reset!` and `swap!` take to be an atom is one on both sides, and the atoms are related; otherwise
both refuse it. -/
theorem cellAtom {v v' : Value} (h : W.Rel v v') :
    Follows o (fun W => W.Names .atom) W (Run.ofExcept (Cell.atom v)) (Run.ofExcept (Cell.atom v')) := by
  cases v with
  | atom a =>
    obtain ⟨b, rfl, ha⟩ := h.of_atom
    exact pure ha
  | _ =>
    obtain rfl := h.eq
    exact fail (.of_nil rfl rfl)

/-- `atom` allocates on both sides. -/
theorem make {v v' : Value} (h : W.Rel v v') : Follows o Related W (Cell.make v) (Cell.make v') :=
  (addAtom h).bind fun _ _ _ ha => pure (World.Rel.atom ha)

theorem deref {v v' : Value} (h : W.Rel v v') : Follows o Related W (Cell.deref v) (Cell.deref v') :=
  (cellAtom h).bind fun _ _ _ ha => gets fun hm => hm.atomValue ha

theorem reset {cell cell' v v' : Value} (hc : W.Rel cell cell') (h : W.Rel v v') :
    Follows o Related W (Cell.reset cell v) (Cell.reset cell' v') :=
  (cellAtom hc).bind fun le _ _ ha => (setAtom ha (h.mono le)).bind fun le' _ _ _ => pure (h.mono (le.trans le'))

/-- `slurp` depends on the files, which both contexts share, and not on the machine. -/
theorem slurp (hc : ctx.Akin ctx') {v v' : Value} (h : W.Rel v v') :
    Follows o Related W (Builtin.slurpFile ctx v) (Builtin.slurpFile ctx' v') := by
  refine (ofExcept (h.map Convert.equivariant_string)).bind fun le path path' hp => ?_
  obtain rfl : path' = path := hp.eq
  refine (record hc .info (World.sameMessage_const _)).bind fun _ _ _ _ => ?_
  rw [hc.files]
  split
  · exact pure (.of_nil rfl rfl)
  · exact fail (.of_nil rfl rfl)

/-- `prn` and `println` print the same line on both sides. -/
theorem printed (mode : Mode) (h : W.Rel args args') :
    Follows o Related W (Builtin.printLine mode args) (Builtin.printLine mode args') := by
  refine (joined mode " " h).bind fun _ line line' hl => ?_
  obtain rfl : line' = line := hl.eq
  exact (printLine line').bind fun _ _ _ _ => pure (.of_nil rfl rfl)

theorem text (mode : Mode) (between : String) (h : W.Rel args args') :
    Follows o Related W (Run.bind (Run.joined mode between args) fun s => Run.pure (Value.text s))
      (Run.bind (Run.joined mode between args') fun s => Run.pure (Value.text s)) := by
  refine (joined mode between h).bind fun _ s s' hs => ?_
  obtain rfl : s' = s := hs.eq
  exact pure (.of_nil rfl rfl)

/-- A type test gives the same answer on both sides. -/
theorem test {holds : Value → Bool} (hr : ∀ f v, holds (Refers.rename f v) = holds v) {v v' : Value}
    (h : W.Rel v v') : Follows o Related W (Run.pure (Value.bool (holds v))) (Run.pure (Value.bool (holds v'))) :=
  pure (h.map (equivariant_test hr))

/-! ## All builtins -/

/-- Every builtin follows itself on related arguments: those that depend on the arguments alone by equivariance, the
others by their own lemma above. -/
theorem run (hc : ctx.Akin ctx') (b : Builtin) (ha : b.arity.accepts args.length = true)
    (h : W.Rel args args') : Follows o Related W (b.run ctx args) (b.run ctx' args') := by
  cases b with
  | add => exact ofExcept (h.map Arithmetic.equivariant_sum)
  | subtract => exact ofExcept (h.map Arithmetic.equivariant_difference)
  | multiply => exact ofExcept (h.map Arithmetic.equivariant_product)
  | divide => exact ofExcept (h.map Arithmetic.equivariant_quotient)
  | equal => exact two h ha fun _ _ _ _ hv hw => pure ((hv.pair hw).map Value.equivariant_equal)
  | greater => exact two h ha fun _ _ _ _ hv hw => ofExcept ((hv.pair hw).map (Arithmetic.equivariant_comparison _))
  | greaterEqual =>
    exact two h ha fun _ _ _ _ hv hw => ofExcept ((hv.pair hw).map (Arithmetic.equivariant_comparison _))
  | less => exact two h ha fun _ _ _ _ hv hw => ofExcept ((hv.pair hw).map (Arithmetic.equivariant_comparison _))
  | lessEqual => exact two h ha fun _ _ _ _ hv hw => ofExcept ((hv.pair hw).map (Arithmetic.equivariant_comparison _))
  | prStr => exact text _ _ h
  | str => exact text _ _ h
  | prn => exact printed _ h
  | println => exact printed _ h
  | readString => exact one h ha fun _ _ hv => ofExcept (hv.map Convert.equivariant_readString)
  | slurp => exact one h ha fun _ _ hv => slurp hc hv
  | list => exact pure h.list
  | vector => exact pure h.vector
  | vec => exact one h ha fun _ _ hv => ofExcept (hv.map Sequence.equivariant_vec)
  | cons => exact two h ha fun _ _ _ _ hv hw => ofExcept ((hv.pair hw).map Sequence.equivariant_cons)
  | concat => exact ofExcept (h.map Sequence.equivariant_concat)
  | nth => exact two h ha fun _ _ _ _ hv hw => ofExcept ((hv.pair hw).map Sequence.equivariant_nth)
  | first => exact one h ha fun _ _ hv => ofExcept (hv.map Sequence.equivariant_first)
  | rest => exact one h ha fun _ _ hv => ofExcept (hv.map Sequence.equivariant_rest)
  | isEmpty => exact one h ha fun _ _ hv => ofExcept (hv.map Sequence.equivariant_isEmpty)
  | count => exact one h ha fun _ _ hv => ofExcept (hv.map Sequence.equivariant_count)
  | hashMap => exact ofExcept (h.map Table.equivariant_hashMap)
  | assoc => exact oneOrMore h ha fun _ _ _ _ hv hs => ofExcept ((hv.pair hs).map Table.equivariant_assoc)
  | dissoc => exact oneOrMore h ha fun _ _ _ _ hv hs => ofExcept ((hv.pair hs).map Table.equivariant_dissoc)
  | get => exact two h ha fun _ _ _ _ hv hw => ofExcept ((hv.pair hw).map Table.equivariant_get)
  | contains => exact two h ha fun _ _ _ _ hv hw => ofExcept ((hv.pair hw).map Table.equivariant_contains)
  | keys => exact one h ha fun _ _ hv => ofExcept (hv.map Table.equivariant_keys)
  | vals => exact one h ha fun _ _ hv => ofExcept (hv.map Table.equivariant_vals)
  | atom => exact one h ha fun _ _ hv => make hv
  | deref => exact one h ha fun _ _ hv => deref hv
  | reset => exact two h ha fun _ _ _ _ hv hw => reset hv hw
  | isNil => exact one h ha fun _ _ hv => test (fun _ v => by cases v <;> rfl) hv
  | isTrue => exact one h ha fun _ _ hv => test (fun _ v => by cases v <;> rfl) hv
  | isFalse => exact one h ha fun _ _ hv => test (fun _ v => by cases v <;> rfl) hv
  | isList => exact one h ha fun _ _ hv => test (fun _ v => by cases v <;> rfl) hv
  | isVector => exact one h ha fun _ _ hv => test (fun _ v => by cases v <;> rfl) hv
  | isSequential => exact one h ha fun _ _ hv => test (fun _ v => by cases v <;> rfl) hv
  | isAtom => exact one h ha fun _ _ hv => test (fun _ v => by cases v <;> rfl) hv
  | symbol => exact one h ha fun _ _ hv => ofExcept (hv.map Convert.equivariant_symbol)
  | isSymbol => exact one h ha fun _ _ hv => test (fun _ v => by cases v <;> rfl) hv
  | keyword => exact one h ha fun _ _ hv => ofExcept (hv.map Convert.equivariant_keyword)
  | isKeyword => exact one h ha fun _ _ hv => test (fun _ v => by cases v <;> rfl) hv
  | isMap => exact one h ha fun _ _ hv => test (fun _ v => by cases v <;> rfl) hv
  | isFunction => exact one h ha fun _ _ hv => test (fun f v => by simp [Convert.isFunction]) hv
  | isMacro => exact one h ha fun _ _ hv => test Value.expands_rename hv
  | isString => exact one h ha fun _ _ hv => test (fun _ v => by cases v <;> rfl) hv
  | isNumber => exact one h ha fun _ _ hv => test (fun _ v => by cases v <;> rfl) hv
  | throw => exact one h ha fun _ _ hv => fail (hv.map (g := EvalError.thrown) fun _ _ => rfl)

/-- A call of an ordinary builtin. -/
theorem builtin (hc : ctx.Akin ctx') (b : Builtin) (h : W.Rel args args') :
    Follows o Related W (Call.builtin ctx b args) (Call.builtin ctx' b args') := by
  refine counted h fun ha => (record hc .trace (World.sameMessage_callText (World.sameMessage_const _) h)).bind
    fun le _ _ _ => ?_
  refine observe (run hc b ha (h.mono le)) (fun le hr => hr.mono le) (fun le' v v' hv => ?_)
    fun le' fault fault' hf => ?_
  · exact recordValue hc .trace _ hv
  · refine record hc .trace fun m n hm => ?_
    have same := World.sameMessage_fault hf m n hm
    simp only at same
    rw [same]

end Follows

end MiniLisp

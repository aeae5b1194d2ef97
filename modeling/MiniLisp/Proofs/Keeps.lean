import Mathlib
import MiniLisp.Proofs.Invariant

/-!
# Runs that keep invariants

A run keeps an invariant if, on a machine that keeps to it, it leaves such a machine behind and comes to what fits there.
That passes from runs to what they are put together to, and all operations on machines and all builtins are such runs.
Two runs are compared at once: they go alike as long as all is kept.

* `Invariant.Ends`: an outcome on a machine that keeps to the invariant.
* `Invariant.Keeps`: runs that keep it (`Keeps.bind`), one operation after another.
* `Invariant.Keeps.builtin`: calls of builtins.
-/

namespace MiniLisp

namespace Invariant

/-! ## Runs -/

/-- An outcome on a machine that keeps to the invariant and has no less than before. If it is no failure, it satisfies a
condition there. -/
structure Ends (I : Invariant) {ε α : Type} (P : Set Ref → α → Prop) (m : Machine) (r : Except ε α) (m' : Machine) :
    Prop where
  holds : I.Holds m'
  more : I.has m ⊆ I.has m'
  value : IfValue (P (I.has m')) r

/-- Two runs that go alike on machines that keep to the invariant and have what is in the set, and keep it. -/
def Keeps (I : Invariant) {α : Type} (P : Set Ref → α → Prop) (S : Set Ref) (x y : Run α) : Prop :=
  ∀ m : Machine, I.Holds m → S ⊆ I.has m → y m = x m ∧
    ∀ (r : Except EvalError α) (m' : Machine), x m = some (r, m') → I.Ends P m r m'

/-- No condition on what a run comes to. -/
abbrev Anything {α : Type} (_ : Set Ref) (_ : α) : Prop := True

/-- Values that fit. -/
def FitsAll (I : Invariant) (S : Set Ref) (vs : List Value) : Prop := ∀ v ∈ vs, I.Fits S v

/-- Entries with values that fit. -/
def FitsEntries (I : Invariant) (S : Set Ref) (es : Entries) : Prop := ∀ p ∈ es, I.Fits S p.2

/-- A value that fits, or a form that fits, to be evaluated in a frame that is there. -/
def FitsTurn (I : Invariant) (S : Set Ref) : Turn → Prop
  | .done v => I.Fits S v
  | .again e form => ⟨.frame, e⟩ ∈ S ∧ I.Fits S form

variable {I : Invariant} {S T : Set Ref}

theorem FitsAll.mono {vs : List Value} (h : I.FitsAll S vs) (hs : S ⊆ T) : I.FitsAll T vs :=
  fun v hv => (h v hv).mono hs

theorem FitsEntries.mono {es : Entries} (h : I.FitsEntries S es) (hs : S ⊆ T) : I.FitsEntries T es :=
  fun p hp => (h p hp).mono hs

/-- A turn that fits still does when more is there. -/
theorem FitsTurn.mono {turn : Turn} (h : I.FitsTurn S turn) (hs : S ⊆ T) : I.FitsTurn T turn := by
  cases turn with
  | done v => exact Fits.mono h hs
  | again e form => exact ⟨hs h.1, h.2.mono hs⟩

namespace Keeps

variable {α β : Type} {P : Set Ref → α → Prop} {Q : Set Ref → β → Prop} {x y : Run α}

section

variable {m : Machine} (h : I.Keeps P (I.has m) x y) (hm : I.Holds m)
include h hm

theorem same : y m = x m := (h m hm (Set.Subset.refl _)).1

/-- A run kept ends as the invariant says, wherever the run does end. -/
theorem ends {r : Except EvalError α} {m' : Machine} (hr : x m = some (r, m')) : I.Ends P m r m' :=
  (h m hm (Set.Subset.refl _)).2 r m' hr

end

/-- A run that ends at once keeps the invariant when its outcome is as it should be in every machine to come. -/
theorem pure {a : α} (h : ∀ T, S ⊆ T → P T a) : I.Keeps P S (Run.pure a) (Run.pure a) := by
  refine fun m hm hs => ⟨rfl, fun r m' hr => ?_⟩
  cases hr
  exact ⟨hm, Set.Subset.refl _, .ok (h _ hs)⟩

theorem value {v : Value} (h : I.Fits S v) : I.Keeps I.Fits S (Run.pure v) (Run.pure v) := pure fun _ => h.mono

theorem turn {turn : Turn} (h : I.FitsTurn S turn) : I.Keeps I.FitsTurn S (Run.pure turn) (Run.pure turn) :=
  pure fun _ => h.mono

/-- A failure carries no value that could miss the invariant. -/
theorem fail (fault : EvalError) : I.Keeps P S (Run.fail fault) (Run.fail fault) := by
  refine fun m hm hs => ⟨rfl, fun r m' hr => ?_⟩
  cases hr
  exact ⟨hm, Set.Subset.refl _, .error fault⟩

/-- What the second run is given is there and fits when it starts. -/
theorem bind {f g : α → Run β} (h : I.Keeps P S x y)
    (hf : ∀ T, S ⊆ T → ∀ a, P T a → I.Keeps Q T (f a) (g a)) :
    I.Keeps Q S (Run.bind x f) (Run.bind y g) := by
  intro m hm hs
  obtain ⟨same, ends⟩ := h m hm hs
  have rest {a : α} {n : Machine} (hx : x m = some (.ok a, n)) :
      I.Holds n ∧ I.has m ⊆ I.has n ∧ I.Keeps Q (I.has n) (f a) (g a) := by
    obtain ⟨holds, more, ha⟩ := ends _ _ hx
    exact ⟨holds, more, hf (I.has n) (hs.trans more) a (ha a rfl)⟩
  refine ⟨Run.bind_alike same fun a n hx => (rest hx).2.2.same (rest hx).1, fun r m' hr => ?_⟩
  rcases Run.bind_eq_some hr with ⟨fault, n, hx, hr⟩ | ⟨a, n, hx, hr⟩
  · cases hr
    obtain ⟨holds, more, -⟩ := ends _ _ hx
    exact ⟨holds, more, .error fault⟩
  · obtain ⟨holds, more, keeps⟩ := rest hx
    obtain ⟨holds', more', hb⟩ := keeps.ends holds hr
    exact ⟨holds', more.trans more', hb⟩

/-- Records made of a run's outcome leave the outcome alone. -/
theorem observe {f : α → Run Unit} {g : EvalError → Run Unit} (h : I.Keeps P S x x)
    (hP : ∀ {T T' : Set Ref} {a : α}, P T a → T ⊆ T' → P T' a) (hf : ∀ T a, I.Keeps Anything T (f a) (f a))
    (hg : ∀ T fault, I.Keeps Anything T (g fault) (g fault)) :
    I.Keeps P S (Run.observe x f g) (Run.observe x f g) := by
  refine fun m hm hs => ⟨rfl, fun r m' hr => ?_⟩
  rcases Run.observe_eq_some hr with ⟨fault, n, hx, hr⟩ | ⟨a, n, hx, hr⟩
  · obtain ⟨holds, more, -⟩ := (h m hm hs).2 _ _ hx
    have after : I.Keeps P (I.has n) (Run.bind (g fault) fun _ => Run.fail fault) _ :=
      (hg (I.has n) fault).bind fun _ _ _ _ => fail fault
    obtain ⟨holds', more', ha⟩ := after.ends holds hr
    exact ⟨holds', more.trans more', ha⟩
  · obtain ⟨holds, more, ha⟩ := (h m hm hs).2 _ _ hx
    have after : I.Keeps P (I.has n) (Run.bind (f a) fun _ => Run.pure a) _ :=
      (hf (I.has n) a).bind fun T hs' _ _ => pure fun T' hs'' => hP (ha a rfl) (hs'.trans hs'')
    obtain ⟨holds', more', ha⟩ := after.ends holds hr
    exact ⟨holds', more.trans more', ha⟩

/-- What is computed from values alone ends as its value says, in every machine. -/
theorem ofExcept {r : Except EvalError α} (hP : ∀ {T T' : Set Ref} {a : α}, P T a → T ⊆ T' → P T' a)
    (h : IfValue (P S) r) : I.Keeps P S (Run.ofExcept r) (Run.ofExcept r) := by
  cases r with
  | ok a => exact pure fun _ hs => hP (h a rfl) hs
  | error fault => exact fail fault

/-- An outcome that fits if it is a value. -/
theorem result {r : Except EvalError Value} (h : IfValue (I.Fits S) r) :
    I.Keeps I.Fits S (Run.ofExcept r) (Run.ofExcept r) :=
  ofExcept Fits.mono h

/-- An outcome that is looked at no further. -/
theorem settled (r : Except EvalError α) : I.Keeps Anything S (Run.ofExcept r) (Run.ofExcept r) :=
  ofExcept (fun _ _ => trivial) fun _ _ => trivial

/-- A reading leaves the machine as it was, so only what is read has to fit. -/
theorem gets {f : Machine → α} (h : ∀ m : Machine, I.Holds m → S ⊆ I.has m → P (I.has m) (f m)) :
    I.Keeps P S (Run.gets f) (Run.gets f) := by
  refine fun m hm hs => ⟨rfl, fun r m' hr => ?_⟩
  cases hr
  exact ⟨hm, Set.Subset.refl _, .ok (h m hm hs)⟩

theorem gets? (f : Machine → Option α) : I.Keeps Anything S (Run.gets? f) (Run.gets? f) := by
  refine fun m hm hs => ⟨rfl, fun r m' hr => ?_⟩
  obtain ⟨a, -, he⟩ := Run.gets?_eq_some hr
  cases he
  exact ⟨hm, Set.Subset.refl _, fun _ _ => trivial⟩

/-- An operation has to keep the invariant, to lose nothing and to give what it should. -/
theorem change {f : Machine → α × Machine}
    (h : ∀ m : Machine, I.Holds m → S ⊆ I.has m →
      (I.Holds (f m).2 ∧ I.has m ⊆ I.has (f m).2) ∧ P (I.has (f m).2) (f m).1) :
    I.Keeps P S (Run.change f) (Run.change f) := by
  refine fun m hm hs => ⟨rfl, fun r m' hr => ?_⟩
  cases hr
  obtain ⟨⟨holds, more⟩, ha⟩ := h m hm hs
  exact ⟨holds, more, .ok ha⟩

/-- The case of an operation that gives nothing back. -/
theorem modify {f : Machine → Machine}
    (h : ∀ m : Machine, I.Holds m → S ⊆ I.has m → I.Holds (f m) ∧ I.has m ⊆ I.has (f m)) :
    I.Keeps Anything S (Run.modify f) (Run.modify f) := by
  refine fun m hm hs => ⟨rfl, fun r m' hr => ?_⟩
  cases hr
  obtain ⟨holds, more⟩ := h m hm hs
  exact ⟨holds, more, fun _ _ => trivial⟩

/-! ### Operations on machines -/

/-- The number of a new frame below one that is there. -/
theorem addFrame {bs : Bindings} {o : FrameId} (hb : ∀ b ∈ bs, I.Fits S b.2) (ho : ⟨.frame, o⟩ ∈ S) :
    I.Keeps (fun T e => ⟨.frame, e⟩ ∈ T) S (Run.change fun m => m.addFrame bs (some o))
      (Run.change fun m => m.addFrame bs (some o)) := by
  refine change fun m hm hs => ⟨?_, I.has_frame Array.getElem?_push_size⟩
  have more : I.has m ⊆ I.has (m.addFrame bs (some o)).2 :=
    I.mono (Machine.ChangesOnly.addFrame m bs (some o) []).grows (Nat.le_refl _) (Nat.le_refl _)
  exact hm.addFrame (fun b h => (hb b h).mono (hs.trans more)) fun o' ho' => by cases ho'; exact hs ho

/-- A new closure is there from then on. -/
theorem newClosure :
    I.Keeps (fun T id => ⟨.closure, id⟩ ∈ T) S (Run.change Machine.newClosure) (Run.change Machine.newClosure) :=
  change fun m hm _ => ⟨hm.of_eq rfl rfl (Nat.le_succ m.closures), I.newClosure m⟩

/-- A value that fits may be bound under any name in any frame. -/
theorem bindName (e : FrameId) (name : String) {v : Value} (hv : I.Fits S v) :
    I.Keeps Anything S (Run.modify fun m => m.bind e name v) (Run.modify fun m => m.bind e name v) :=
  modify fun _ hm hs => hm.bind e name (hv.mono hs)

/-- What is looked up fits, since every binding of the machine does. -/
theorem lookup (e : FrameId) (name : String) :
    I.Keeps (fun T v => ∀ w, v = some w → I.Fits T w) S (Run.gets fun m => m.lookup e name)
      (Run.gets fun m => m.lookup e name) :=
  gets fun _ hm _ _ hw => hm.lookup e hw

theorem atomValue (a : AtomId) :
    I.Keeps I.Fits S (Run.gets fun m => m.atomValue a) (Run.gets fun m => m.atomValue a) :=
  gets fun _ hm _ => hm.atomValue a

/-- A record leaves frames, atoms and closures alone. -/
theorem record (ctx : Context) (level : Level) (message : Message) :
    I.Keeps Anything S (Run.record ctx level message) (Run.record ctx level message) := by
  unfold Run.record
  split
  · exact (gets? _).bind fun _ _ t _ => modify fun m hm _ => hm.addRecord level t
  · exact pure fun _ _ => trivial

/-- A call with the wrong count of arguments fails before anything is done. -/
theorem checkCount (name : String) (arity : Arity) (args : List Value)
    (hx : arity.accepts args.length = true → I.Keeps P S x y) :
    I.Keeps P S (Run.bind (Call.checkCount name arity args) fun _ => x)
      (Run.bind (Call.checkCount name arity args) fun _ => y) := by
  unfold Call.checkCount
  split
  · next h => exact hx h
  · exact fail _

/-! ## Builtins -/

section

variable {args : List Value} {x y : List Value → Run α} (h : I.FitsAll S args)
include h

/-- The arguments of a call that takes one, by their pattern. -/
theorem one (ha : (Arity.exactly 1).accepts args.length = true)
    (hx : ∀ v, I.Fits S v → I.Keeps P S (x [v]) (y [v])) : I.Keeps P S (x args) (y args) := by
  obtain ⟨v, rfl⟩ := List.length_eq_one_iff.1 (Arity.accepts_exactly.1 ha)
  exact hx v (Hereditary.head h)

theorem two (ha : (Arity.exactly 2).accepts args.length = true)
    (hx : ∀ v w, I.Fits S v → I.Fits S w → I.Keeps P S (x [v, w]) (y [v, w])) :
    I.Keeps P S (x args) (y args) := by
  obtain ⟨v, w, rfl⟩ := List.length_eq_two.1 (Arity.accepts_exactly.1 ha)
  exact hx v w (Hereditary.head h) (Hereditary.head (Hereditary.tail h))

theorem oneOrMore (ha : (Arity.atLeast 1).accepts args.length = true)
    (hx : ∀ v vs, I.Fits S v → I.FitsAll S vs → I.Keeps P S (x (v :: vs)) (y (v :: vs))) :
    I.Keeps P S (x args) (y args) := by
  obtain ⟨v, vs, rfl⟩ := List.exists_cons_of_length_pos (Arity.accepts_atLeast.1 ha)
  exact hx v vs (Hereditary.head h) (Hereditary.tail h)

end

section

variable {ctx : Context} {args : List Value}

/-- `atom` makes a cell for a value that fits. -/
theorem make {v : Value} (h : I.Fits S v) : I.Keeps I.Fits S (Cell.make v) (Cell.make v) := by
  have added : I.Keeps (fun T a => ⟨.atom, a⟩ ∈ T) S (Run.change fun m => m.addAtom v)
      (Run.change fun m => m.addAtom v) := by
    refine change fun m hm hs => ⟨hm.addAtom (h.mono hs), I.cell.2 ?_⟩
    change m.atoms.size < (m.atoms.push v).size
    rw [Array.size_push]
    exact Nat.lt_succ_self _
  exact added.bind fun _ _ _ ha => value (.atom ha)

theorem deref (v : Value) : I.Keeps I.Fits S (Cell.deref v) (Cell.deref v) :=
  (settled (Cell.atom v)).bind fun _ _ a _ => atomValue a

/-- `reset!` stores a value that fits, whatever atom it is stored in. -/
theorem reset {v : Value} (cell : Value) (h : I.Fits S v) :
    I.Keeps I.Fits S (Cell.reset cell v) (Cell.reset cell v) := by
  refine (settled (Cell.atom cell)).bind fun _ hs a _ => ?_
  have h := h.mono hs
  exact (modify fun _ hm hs => hm.setAtom a (h.mono hs)).bind fun _ hs _ _ => value (h.mono hs)

/-- `slurp` gives a text, and texts fit always. -/
theorem slurp (v : Value) : I.Keeps I.Fits S (Builtin.slurpFile ctx v) (Builtin.slurpFile ctx v) := by
  refine (settled _).bind fun _ _ path _ => (record ctx .info _).bind fun T _ _ _ => ?_
  split
  · exact value ((I.fits T).data (.text _))
  · exact fail _

theorem printed (mode : Mode) (args : List Value) :
    I.Keeps I.Fits S (Builtin.printLine mode args) (Builtin.printLine mode args) := by
  refine (gets? _).bind fun _ _ line _ => ?_
  refine (modify fun m hm _ => hm.printLine line).bind fun T _ _ _ => ?_
  exact value (I.fits T).nil

theorem text (mode : Mode) (between : String) (args : List Value) :
    I.Keeps I.Fits S (Run.bind (Run.joined mode between args) fun s => Run.pure (Value.text s))
      (Run.bind (Run.joined mode between args) fun s => Run.pure (Value.text s)) :=
  (gets? _).bind fun T _ s _ => value ((I.fits T).data (.text s))

/-- What a builtin comes to is made of its arguments, or of what is there. -/
theorem run (b : Builtin) (ha : b.arity.accepts args.length = true) (h : I.FitsAll S args) :
    I.Keeps I.Fits S (b.run ctx args) (b.run ctx args) := by
  have V := I.fits S
  cases b with
  | add | multiply => exact result (.map_any fun _ => V.number _)
  | subtract => exact result (V.difference args)
  | divide => exact result (V.quotient args)
  | equal => exact two h ha fun _ _ _ _ => value (V.bool _)
  | greater | greaterEqual | less | lessEqual => exact two h ha fun _ _ _ _ => result (V.comparison _ _ _)
  | prStr | str => exact text _ _ args
  | prn | println => exact printed _ args
  | readString => exact one h ha fun v _ => result (V.readString v)
  | slurp => exact one h ha fun v _ => slurp v
  | list => exact value (V.list.2 h)
  | vector => exact value (V.vector.2 h)
  | vec => exact one h ha fun _ hv => result (V.vec hv)
  | cons => exact two h ha fun _ _ hv hs => result (V.cons hv hs)
  | concat => exact result (V.concat h)
  | nth => exact two h ha fun _ i hs _ => result (V.nth hs i)
  | first => exact one h ha fun _ hs => result (V.first hs)
  | rest => exact one h ha fun _ hs => result (V.rest hs)
  | isEmpty => exact one h ha fun _ _ => result (.map_any fun _ => V.bool _)
  | count => exact one h ha fun _ _ => result (.map_any fun _ => V.data (.int _))
  | hashMap => exact result (V.hashMap h)
  | assoc => exact oneOrMore h ha fun _ _ hm hs => result (V.assoc hm hs)
  | dissoc => exact oneOrMore h ha fun _ ks hm _ => result (V.dissoc hm ks)
  | get => exact two h ha fun _ k hm _ => result (V.get hm k)
  | contains => exact two h ha fun m k _ _ => result (V.contains m k)
  | keys => exact one h ha fun m _ => result (V.keys m)
  | vals => exact one h ha fun _ hm => result (V.vals hm)
  | atom => exact one h ha fun _ hv => make hv
  | deref => exact one h ha fun v _ => deref v
  | reset => exact two h ha fun cell _ _ hv => reset cell hv
  | throw => exact one h ha fun v _ => fail (.thrown v)
  | isNil | isTrue | isFalse | isList | isVector | isSequential | isAtom | isSymbol | isKeyword | isMap | isFunction
  | isMacro | isString | isNumber => exact one h ha fun _ _ => value (V.bool _)
  | symbol => exact one h ha fun _ _ => result (.map_any V.symbol)
  | keyword => exact one h ha fun v _ => result (V.keyword v)

/-- A call of a builtin, with its count checked and its record made. -/
theorem builtin (b : Builtin) (h : I.FitsAll S args) :
    I.Keeps I.Fits S (Call.builtin ctx b args) (Call.builtin ctx b args) := by
  refine checkCount _ _ _ fun ha => (record ctx .trace _).bind fun _ hs _ _ => ?_
  exact observe (run b ha (h.mono hs)) Fits.mono (fun _ _ => record ctx .trace _) fun _ _ => record ctx .trace _

/-! ## Small operations -/

/-- The frame of a call holds the arguments and lies inside the frame the closure has captured. -/
theorem enter (params : Params) {captured : FrameId} (hc : ⟨.frame, captured⟩ ∈ S) (h : I.FitsAll S args) :
    I.Keeps (fun T e => ⟨.frame, e⟩ ∈ T) S (Call.enter params captured args) (Call.enter params captured args) :=
  checkCount _ _ _ fun _ => addFrame ((I.fits S).bindings params h) hc

/-- A target that is no symbol is refused; a symbol is bound in the frame. -/
theorem bindSymbol (e : FrameId) (target : Value) {v : Value} (hv : I.Fits S v) :
    I.Keeps Anything S (Step.bindSymbol e target v) (Step.bindSymbol e target v) := by
  unfold Step.bindSymbol
  split
  · exact bindName e _ hv
  · exact fail _

/-- A macro is a closure again, with the parameters and the body of the one that it is made of. -/
theorem asMacro {v : Value} (hv : I.Fits S v) : I.Keeps I.Fits S (Step.asMacro v) (Step.asMacro v) := by
  unfold Step.asMacro
  split
  · obtain ⟨hp, -, he, hb⟩ := Fits.closure_iff.1 hv
    exact newClosure.bind fun _ hs _ hid => value (Fits.closure_iff.2 ⟨hp, hid, hs he, hb.mono hs⟩)
  · exact fail _

/-- A closure made a macro has the parameters, the body and the frame it had. -/
theorem valueFor (form : SpecialForm) {v : Value} (hv : I.Fits S v) :
    I.Keeps I.Fits S (Step.valueFor form v) (Step.valueFor form v) := by
  cases form with
  | defineMacro => exact asMacro hv
  | _ => exact value hv

/-- What `def!` and `defmacro!` bind and give back. -/
theorem bindFor (e : FrameId) (form : SpecialForm) (target : Value) {v : Value} (hv : I.Fits S v) :
    I.Keeps I.Fits S (Step.bindFor ctx e form target v) (Step.bindFor ctx e form target v) :=
  (bindSymbol e target hv).bind fun _ hs _ _ => (record ctx .debug _).bind fun _ hs' _ _ =>
    value (hv.mono (hs.trans hs'))

/-- A closure has the parameters that names spell. -/
theorem function {e : FrameId} (he : ⟨.frame, e⟩ ∈ S) (parameters : Value) {body : Value} (hb : I.Fits S body) :
    I.Keeps I.Fits S (Step.function e parameters body) (Step.function e parameters body) := by
  unfold Step.function
  split
  · exact fail _
  · next hp =>
    exact newClosure.bind fun _ hs _ hid => value (Fits.closure_iff.2 ⟨I.signature hp, hid, hs he, hb.mono hs⟩)

end

end Keeps

end Invariant

end MiniLisp

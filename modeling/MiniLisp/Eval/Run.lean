import MiniLisp.Files
import MiniLisp.Machine.Lifetime

/-!
# Runs

A run takes the machine from one state to the next and ends with a result or a failure, or it does not end (`none`).
What it may look at besides is its context: the files, the records that are wanted, and what is held while it goes on.
-/

namespace MiniLisp

/-- What a run may look at besides the machine. -/
structure Context where
  files : Files
  /-- The least level that is recorded, if any is. -/
  recorded : Option Level
  held : Holds

namespace Context

def records (ctx : Context) (level : Level) : Bool :=
  match ctx.recorded with
  | some least => least.rank ≤ level.rank
  | none => false

/-- The context with a frame and a value held as well. -/
def hold (ctx : Context) (e : FrameId) (v : Value) : Context := { ctx with held := (ctx.held.frame e).value v }

def holdFrame (ctx : Context) (e : FrameId) : Context := { ctx with held := ctx.held.frame e }

def holdValue (ctx : Context) (v : Value) : Context := { ctx with held := ctx.held.value v }

def holdItems (ctx : Context) (vs : List Value) : Context := { ctx with held := ctx.held.items vs }

/-- The context with all that takes part in a call of a closure held as well. -/
def holdCall (ctx : Context) (f : Value) (args : List Value) (e : FrameId) (body : Value) : Context :=
  (ctx.holdItems (f :: args)).hold e body

end Context

/-- What a record says, given what the atoms hold is printed as; `none` if a print has no end. -/
abbrev Message := (AtomId → Option (List Char)) → Option String

namespace Message

/-- A text and the print of a value. -/
def value (what : String) (v : Value) : Message := fun contents =>
  (v.render .readable contents).map fun cs => what ++ String.ofList cs

/-- The prints of values with something between each two. -/
def joined (between : String) (args : List Value) : Message := fun contents =>
  (args.mapM (Value.render .readable contents)).map fun css => between.intercalate (css.map String.ofList)

end Message

/-- A run, with the state it leaves behind in either case; `none` if it does not end. -/
def Run (α : Type) : Type := Machine → Option (Except EvalError α × Machine)

namespace Run

variable {α β : Type}

@[inline]
protected def pure (a : α) : Run α := fun m => some (.ok a, m)

/-- A failure ends a run. -/
@[inline]
protected def bind (x : Run α) (f : α → Run β) : Run β := fun m =>
  match x m with
  | none => none
  | some (.error e, m) => some (.error e, m)
  | some (.ok a, m) => f a m

@[inline]
def fail (e : EvalError) : Run α := fun m => some (.error e, m)

@[inline]
instance : Monad Run where
  pure := Run.pure
  bind := Run.bind

@[inline]
def ofExcept (x : Except EvalError α) : Run α := fun m => some (x, m)

/-- What can be seen of the state. -/
@[inline]
def gets (f : Machine → α) : Run α := fun m => some (.ok (f m), m)

/-- What can be seen of the state, if it can be found out. -/
@[inline]
def gets? (f : Machine → Option α) : Run α := fun m =>
  match f m with
  | none => none
  | some a => some (.ok a, m)

@[inline]
def modify (f : Machine → Machine) : Run Unit := fun m => some (.ok (), f m)

/-- A change of state that gives something. -/
@[inline]
def change (f : Machine → α × Machine) : Run α := fun m =>
  let (a, m) := f m
  some (.ok a, m)

/-- A run with something done after it, by what it came to. -/
@[inline]
def observe (x : Run α) (onValue : α → Run Unit) (onFailure : EvalError → Run Unit) : Run α := fun m =>
  match x m with
  | none => none
  | some (.ok a, m) => Run.bind (onValue a) (fun _ => Run.pure a) m
  | some (.error e, m) => Run.bind (onFailure e) (fun _ => fail e) m

/-- Records a message at a level, if that is wanted. -/
@[inline]
def record (ctx : Context) (level : Level) (message : Message) : Run Unit :=
  if ctx.records level then
    (gets? fun m => message (m.contents .readable)).bind fun t => modify fun m => m.addRecord level t
  else Run.pure ()

/-- Records a text and the print of a value. -/
def recordValue (ctx : Context) (level : Level) (what : String) (v : Value) : Run Unit :=
  record ctx level (Message.value what v)

theorem bind_gets (f : Machine → α) (g : α → Run β) (m : Machine) : Run.bind (gets f) g m = g (f m) m := rfl

/-- A reading that ends has read something and left the machine alone. -/
theorem gets?_eq_some {f : Machine → Option α} {m : Machine} {r : Except EvalError α × Machine}
    (h : gets? f m = some r) : ∃ a, f m = some a ∧ r = (.ok a, m) := by
  unfold gets? at h
  split at h
  · cases h
  · next a ha =>
    cases h
    exact ⟨a, ha, rfl⟩

/-- Runs in sequence may be bracketed either way. -/
theorem bind_assoc {γ : Type} (x : Run α) (f : α → Run β) (g : β → Run γ) :
    Run.bind (Run.bind x f) g = Run.bind x fun a => Run.bind (f a) g := by
  funext m
  simp only [Run.bind]
  cases x m with
  | none => rfl
  | some r =>
    obtain ⟨r, m'⟩ := r
    cases r <;> rfl

theorem bind_ok {x : Run α} {f : α → Run β} {m m' : Machine} {a : α} (h : x m = some (.ok a, m')) :
    Run.bind x f m = f a m' := by
  unfold Run.bind
  rw [h]

theorem bind_error {x : Run α} {f : α → Run β} {m m' : Machine} {fault : EvalError}
    (h : x m = some (.error fault, m')) : Run.bind x f m = some (.error fault, m') := by
  unfold Run.bind
  rw [h]

/-- Runs that go alike up to a point go on alike. -/
theorem bind_congr {x y : Run α} {m m' : Machine} (h : x m = y m') (f : α → Run β) :
    Run.bind x f m = Run.bind y f m' := by
  unfold Run.bind
  rw [h]

/-- Runs that go alike, and on alike from a value of theirs. -/
theorem bind_alike {x y : Run α} {f g : α → Run β} {m : Machine} (h : y m = x m)
    (hfg : ∀ a n, x m = some (.ok a, n) → g a n = f a n) : Run.bind y g m = Run.bind x f m := by
  unfold Run.bind
  rw [h]
  cases hx : x m with
  | none => rfl
  | some out =>
    obtain ⟨a | a, n⟩ := out
    · rfl
    · exact hfg a n hx

/-- What is made of the value of a run. -/
theorem bind_pure {x : Run α} {f : α → β} {m m' : Machine} {r : Except EvalError α} (h : x m = some (r, m')) :
    Run.bind x (fun a => Run.pure (f a)) m = some (r.map f, m') := by
  unfold Run.bind
  rw [h]
  cases r <;> rfl

/-- A run in two parts ends if the first part fails, or if the second one ends after it. -/
theorem bind_eq_some {x : Run α} {f : α → Run β} {m : Machine} {r : Except EvalError β × Machine}
    (h : Run.bind x f m = some r) :
    (∃ fault m', x m = some (.error fault, m') ∧ r = (.error fault, m')) ∨
      ∃ a m', x m = some (.ok a, m') ∧ f a m' = some r := by
  unfold Run.bind at h
  cases hx : x m with
  | none => rw [hx] at h; cases h
  | some out =>
    rw [hx] at h
    obtain ⟨a | a, m'⟩ := out
    · cases h
      exact .inl ⟨a, m', rfl, rfl⟩
    · exact .inr ⟨a, m', rfl, h⟩

/-- A step that only computes does not change how a run ends. -/
theorem bind_pure_eq_some {x : Run α} {f : α → β} {m : Machine} {r : Except EvalError β × Machine}
    (h : Run.bind x (fun a => Run.pure (f a)) m = some r) : ∃ r' m', x m = some (r', m') ∧ r = (r'.map f, m') := by
  rcases bind_eq_some h with ⟨fault, m', hx, rfl⟩ | ⟨a, m', hx, h⟩
  · exact ⟨.error fault, m', hx, rfl⟩
  · cases h
    exact ⟨.ok a, m', hx, rfl⟩

section Observe

variable {x : Run α} {onValue : α → Run Unit} {onFailure : EvalError → Run Unit} {m m' : Machine}

theorem observe_ok {a : α} (h : x m = some (.ok a, m')) :
    Run.observe x onValue onFailure m = Run.bind (onValue a) (fun _ => Run.pure a) m' := by
  unfold Run.observe
  rw [h]

theorem observe_error {fault : EvalError} (h : x m = some (.error fault, m')) :
    Run.observe x onValue onFailure m = Run.bind (onFailure fault) (fun _ => fail fault) m' := by
  unfold Run.observe
  rw [h]

/-- A run with its outcome recorded ends with that outcome, after the record. -/
theorem observe_eq_some {r : Except EvalError α × Machine} (h : Run.observe x onValue onFailure m = some r) :
    (∃ fault m', x m = some (.error fault, m') ∧
        Run.bind (onFailure fault) (fun _ => fail fault) m' = some r) ∨
      ∃ a m', x m = some (.ok a, m') ∧ Run.bind (onValue a) (fun _ => Run.pure a) m' = some r := by
  cases hx : x m with
  | none =>
    unfold Run.observe at h
    rw [hx] at h
    cases h
  | some out =>
    obtain ⟨fault | a, m'⟩ := out
    · exact .inl ⟨fault, m', rfl, (observe_error hx).symm.trans h⟩
    · exact .inr ⟨a, m', rfl, (observe_ok hx).symm.trans h⟩

end Observe

instance : LawfulMonad Run :=
  LawfulMonad.mk' Run
    (fun x => by
      funext m
      change Run.bind x _ m = x m
      simp only [Run.bind]
      cases x m with
      | none => rfl
      | some r =>
        obtain ⟨r, m'⟩ := r
        cases r <;> rfl)
    (fun _ _ => rfl)
    (fun x f g => bind_assoc x f g)

end Run

end MiniLisp

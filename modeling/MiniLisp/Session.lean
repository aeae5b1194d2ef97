import MiniLisp.Interpreter

/-!
# Sessions

A session keeps frames by name and carries out requests on them one after another. A failed request keeps the effects
it had before it failed.

* `Session.perform`: one request.
-/

namespace MiniLisp

/-- A request to a session. Frames are given by name. -/
inductive Request
  /-- Evaluate a text; if `sorted`, the elements of a resulting list are put in the order of their texts. -/
  | eval (source env : String) (sorted : Bool)
  /-- Expand the macro call that a text is, without evaluating it. -/
  | expand (source env : String)
  /-- Make a new root, or a root that binds nothing. -/
  | create (name : String) (bare : Bool)
  /-- Make a frame below another one. -/
  | child (name parent : String)
  /-- Forget a frame. -/
  | drop (name : String)
  /-- Bind a name to the value of a text. -/
  | set (name source env : String)
  /-- Bind the form that a text is to the value of another text. -/
  | bind (target source env : String)
  /-- The binding of a name, if there is one. -/
  | get (name env : String)
  /-- The binding of a name, which must be there. -/
  | fetch (name env : String)
  /-- Bind in one frame what another one binds. -/
  | copy (name source target : String)
  /-- Make a parameter list. -/
  | params (names : List String)
  /-- Make a parameter list and bind it to the values of texts in a new frame below a frame. -/
  | call (names arguments : List String) (env name : String)
  /-- Inspect a frame. -/
  | describe (env : String)

/-- What a request comes to. -/
inductive Answer
  | done
  | value (v : Value)
  | failure (fault : Failure)
  | missing
  /-- Whether the form was a macro call, and what it expands to. -/
  | expansion (isCall : Bool) (result : Except EvalError Value)
  /-- A parameter list, and why it could not be bound, if that was asked for and failed. -/
  | params (p : Params) (fault : Option Failure)
  | badParams (fault : ParamsError)
  | description (text : String)
  /-- The request names a frame that the session does not have. -/
  | unknownFrame

/-- A state of the machine with the frames that are kept by name. -/
structure Session where
  machine : Machine
  handles : List (String × FrameId)
  files : Files

namespace Session

def frame? (s : Session) (name : String) : Option FrameId := s.handles.lookup name

/-- The session without a name. -/
def forget (s : Session) (name : String) : Session :=
  { s with handles := s.handles.filter fun h => h.1 ≠ name }

/-- The session with a frame kept under a name. -/
def keep (s : Session) (name : String) (e : FrameId) : Session :=
  { s with handles := (name, e) :: (s.forget name).handles }

def context (s : Session) (recorded : Option Level) : Context :=
  ⟨s.files, recorded, ⟨s.handles.map (·.2), []⟩⟩

/-- Puts values in the order of their texts; values of equal text keep their order. -/
def sortByText (m : Machine) (vs : List Value) : List Value :=
  let keyed := vs.map fun v => ((m.text? .readable v).getD "", v)
  (keyed.mergeSort fun a b => !Text.before b.1.toList a.1.toList).map (·.2)

/-- The value with its elements sorted, if it is a list. -/
def sortElements (m : Machine) : Value → Value
  | .list vs => .list (sortByText m vs)
  | v => v

/-- The session after a request on its machine. -/
def conclude {α : Type} (s : Session) (answer : Machine → α → Answer) (outcome : Outcome α) :
    Option (Answer × Session) :=
  outcome.map fun r =>
    match r with
    | (.ok a, m) => (answer m a, { s with machine := m })
    | (.error fault, m) => (.failure fault, { s with machine := m })

/-- A request on a frame that is kept by name. -/
def within (s : Session) (env : String) (go : FrameId → Option (Answer × Session)) : Option (Answer × Session) :=
  match s.frame? env with
  | some e => go e
  | none => some (.unknownFrame, s)

/-- The values of texts, in turn. -/
def evaluateEach (ctx : Context) (e : FrameId) : List String → Machine → Outcome (List Value)
  | [], m => some (.ok [], m)
  | source :: rest, m =>
    match Interpreter.evaluateText ctx e source m with
    | none => none
    | some (.error fault, m) => some (.error fault, m)
    | some (.ok v, m) =>
      match evaluateEach (ctx.holdValue v) e rest m with
      | none => none
      | some (.error fault, m) => some (.error fault, m)
      | some (.ok vs, m) => some (.ok (v :: vs), m)

/-- Texts in turn come to an end if the first one fails, or if the others do after it. -/
theorem evaluateEach_cons_eq_some {ctx : Context} {e : FrameId} {source : String} {rest : List String}
    {m m' : Machine} {r : Except Failure (List Value)} (h : evaluateEach ctx e (source :: rest) m = some (r, m')) :
    (∃ fault, Interpreter.evaluateText ctx e source m = some (.error fault, m') ∧ r = .error fault) ∨
      ∃ v n r', Interpreter.evaluateText ctx e source m = some (.ok v, n) ∧
        evaluateEach (ctx.holdValue v) e rest n = some (r', m') ∧ r = r'.map (v :: ·) := by
  unfold evaluateEach at h
  split at h
  · cases h
  · next fault n first => cases h; exact .inl ⟨fault, first, rfl⟩
  · next v n first =>
    split at h
    · cases h
    · next fault k second => cases h; exact .inr ⟨v, n, .error fault, first, second, rfl⟩
    · next vs k second => cases h; exact .inr ⟨v, n, .ok vs, first, second, rfl⟩

/-- A form of a text expanded, with whether it was a macro call. -/
def expansion (ctx : Context) (e : FrameId) (form : Value) (m : Machine) : Outcome (Bool × Except EvalError Value) :=
  let isCall := (m.macroCall? e form).isSome
  (expand evaluate ctx e form m).map fun r => (.ok (isCall, r.1), r.2)

/-- The binding of a name, which must be there. -/
def fetch (e : FrameId) (name : String) : Run Value := do
  match ← Run.gets fun m => m.lookup e name with
  | some v => return v
  | none => Run.fail (.unbound name)

/-- A request carried out; `none` if that does not end. -/
def perform (s : Session) (recorded : Option Level) (request : Request) : Option (Answer × Session) :=
  let ctx := s.context recorded
  let m := s.machine
  match request with
  | .eval source env sorted =>
    s.within env fun e =>
      s.conclude (fun m v => .value (if sorted then sortElements m v else v)) (Interpreter.evaluateText ctx e source m)
  | .expand source env =>
    s.within env fun e =>
      s.conclude (fun _ r => .expansion r.1 r.2) (Interpreter.withForm source (expansion ctx e) m)
  | .create name bare =>
    if bare then
      let (e, m) := m.addFrame [] none
      some (.done, { s with machine := m }.keep name e)
    else
      (Interpreter.newRoot ctx m).map fun r =>
        match r with
        | (.ok e, m) => (.done, { s with machine := m }.keep name e)
        | (.error fault, m) => (.failure (.eval fault), { s with machine := m })
  | .child name parent =>
    s.within parent fun e =>
      let (child, m) := m.addFrame [] (some e)
      some (.done, { s with machine := m }.keep name child)
  | .drop name => some (.done, s.forget name)
  | .set name source env =>
    s.within env fun e =>
      s.conclude (fun _ v => .value v) <|
        Interpreter.withForm source
          (fun form => Interpreter.ofRun do
            let v ← evaluate ctx e form
            Run.modify fun m => m.bind e name v
            return v)
          m
  | .bind target source env =>
    s.within env fun e =>
      s.conclude (fun _ v => .value v) <|
        Interpreter.withForm target
          (fun target =>
            Interpreter.withForm source fun form => Interpreter.ofRun do
              let v ← evaluate ctx e form
              Step.bindSymbol e target v
              return v)
          m
  | .get name env =>
    s.within env fun e =>
      match m.lookup e name with
      | some v => some (.value v, s)
      | none => some (.missing, s)
  | .fetch name env =>
    s.within env fun e => s.conclude (fun _ v => .value v) (Interpreter.ofRun (fetch e name) m)
  | .copy name source target =>
    s.within source fun e =>
      s.within target fun e' =>
        s.conclude (fun _ _ => .done) <|
          Interpreter.ofRun
            (do
              let v ← fetch e name
              Run.modify fun m => m.bind e' name v)
            m
  | .params names =>
    match Params.ofNames? names with
    | .ok p => some (.params p none, s)
    | .error fault => some (.badParams fault, s)
  | .call names arguments env name =>
    match Params.ofNames? names with
    | .error fault => some (.badParams fault, s)
    | .ok p =>
      s.within env fun e =>
        match evaluateEach ctx e arguments m with
        | none => none
        | some (.error fault, m) => some (.params p (some fault), { s with machine := m })
        | some (.ok args, m) =>
          match Call.enter p e args m with
          | none => none
          | some (.error fault, m) => some (.params p (some (.eval fault)), { s with machine := m })
          | some (.ok child, m) => some (.params p none, { s with machine := m }.keep name child)
  | .describe env => s.within env fun e => some (.description (m.describe e), s)

/-- The session with nothing printed and nothing recorded so far. -/
def quiet (s : Session) : Session := { s with machine := { s.machine with printed := "", records := #[] } }

/-- The name of the frame that a session starts with. -/
def mainName : String := "main"

/-- A session with one root. -/
def start (files : Files) (recorded : Option Level) : Option (Except Failure Session) :=
  (Interpreter.boot ⟨files, recorded, .none⟩).map fun r =>
    match r with
    | (.ok e, m) => .ok ⟨m, [(mainName, e)], files⟩
    | (.error fault, _) => .error fault

end Session

end MiniLisp

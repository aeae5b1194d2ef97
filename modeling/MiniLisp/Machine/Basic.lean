import MiniLisp.Error

/-!
# The machine

What evaluation works on: frames of bindings, each but a root below another one; atoms with their contents; how many
closures have been made; the text printed and the records written so far. Frames and atoms are only ever added.

* `Machine.lookup`: the binding of the nearest frame that has the name.
* `Machine.contents`, `Machine.text?`: the texts of atoms and of values.
-/

namespace MiniLisp

/-! ## Bindings -/

/-- The bindings of a frame, each name once, in the order in which the names were first bound. -/
abbrev Bindings := List (String × Value)

namespace Bindings

def find? (name : String) : Bindings → Option Value
  | [] => none
  | (n, v) :: bs => if n = name then some v else find? name bs

/-- The bindings with the name bound to the value. -/
def insert (name : String) (v : Value) : Bindings → Bindings
  | [] => [(name, v)]
  | (n, w) :: bs => if n = name then (name, v) :: bs else (n, w) :: insert name v bs

/-- The bindings with further ones put in, in turn. -/
def insertAll (bs : Bindings) (more : List (String × Value)) : Bindings :=
  more.foldl (fun acc b => acc.insert b.1 b.2) bs

def names (bs : Bindings) : List String := bs.map (·.1)

theorem find?_insert (name name' : String) (v : Value) (bs : Bindings) :
    (bs.insert name v).find? name' = if name = name' then some v else bs.find? name' := by
  induction bs with
  | nil => simp [insert, find?]
  | cons b bs ih =>
    obtain ⟨n, w⟩ := b
    by_cases h : n = name
    · subst h
      by_cases h' : n = name' <;> simp [insert, find?, h']
    · by_cases h' : n = name'
      · subst h'
        simp [insert, find?, h, Ne.symm h]
      · simp [insert, find?, h, h', ih]

end Bindings

/-! ## The state -/

/-- A frame of bindings, below another one unless it is a root. -/
structure Frame where
  bindings : Bindings
  outer : Option FrameId

/-- How much a record matters. -/
inductive Level
  | trace | debug | info
  deriving DecidableEq

namespace Level

def name : Level → String
  | trace => "TRACE"
  | debug => "DEBUG"
  | info => "INFO"

def rank : Level → Nat
  | trace => 0
  | debug => 1
  | info => 2

end Level

/-- A record of what happened. -/
structure Record where
  level : Level
  message : String

structure Machine where
  frames : Array Frame
  atoms : Array Value
  /-- How many identities of closures are taken. -/
  closures : ClosureId
  printed : String
  records : Array Record

namespace Machine

def empty : Machine := ⟨#[], #[], 0, "", #[]⟩

/-! ## Frames -/

/-- A new frame. -/
def addFrame (m : Machine) (bindings : Bindings) (outer : Option FrameId) : FrameId × Machine :=
  (m.frames.size, { m with frames := m.frames.push ⟨bindings, outer⟩ })

/-- Binds a name in one frame. -/
def bind (m : Machine) (e : FrameId) (name : String) (v : Value) : Machine :=
  { m with frames := m.frames.modify e fun f => { f with bindings := f.bindings.insert name v } }

/-- The binding of the nearest frame that has the name, no more than some frames outwards. -/
def lookupWithin (m : Machine) (name : String) : Nat → FrameId → Option Value
  | 0, _ => none
  | steps + 1, e =>
    match m.frames[e]? with
    | none => none
    | some f =>
      match f.bindings.find? name with
      | some v => some v
      | none =>
        match f.outer with
        | some o => lookupWithin m name steps o
        | none => none

/-- The binding of the nearest frame that has the name. A frame lies below older frames only, so that there are no
more frames outwards than its own number says. -/
def lookup (m : Machine) (e : FrameId) (name : String) : Option Value := m.lookupWithin name (e + 1) e

/-- A frame and the frames outwards, no more than some. -/
def chainWithin (m : Machine) : Nat → FrameId → List FrameId
  | 0, _ => []
  | steps + 1, e =>
    match m.frames[e]? with
    | none => []
    | some f =>
      match f.outer with
      | some o => e :: chainWithin m steps o
      | none => [e]

/-- A frame and the frames outwards up to its root. -/
def chain (m : Machine) (e : FrameId) : List FrameId := m.chainWithin (e + 1) e

/-! ## Atoms and closures -/

/-- A new atom. -/
def addAtom (m : Machine) (v : Value) : AtomId × Machine :=
  (m.atoms.size, { m with atoms := m.atoms.push v })

/-- Puts a value into an atom. -/
def setAtom (m : Machine) (a : AtomId) (v : Value) : Machine :=
  { m with atoms := m.atoms.setIfInBounds a v }

def atomValue (m : Machine) (a : AtomId) : Value := m.atoms.getD a .nil

/-- A new identity of a closure. -/
def newClosure (m : Machine) : ClosureId × Machine := (m.closures, { m with closures := m.closures + 1 })

/-! ## Output -/

/-- Prints a line. -/
def printLine (m : Machine) (line : String) : Machine := { m with printed := m.printed ++ line ++ "\n" }

def addRecord (m : Machine) (level : Level) (message : String) : Machine :=
  { m with records := m.records.push ⟨level, message⟩ }

/-! ## Texts -/

/-- The text of what an atom holds, if it nests no more than some atoms. -/
def contentsWithin (m : Machine) (mode : Mode) : Nat → AtomId → Option (List Char)
  | 0, _ => none
  | depth + 1, a => (m.atomValue a).render mode (contentsWithin m mode depth)

/-- The text of what an atom holds. Where more atoms nest than there are, one holds itself, and its print has no
end. -/
def contents (m : Machine) (mode : Mode) (a : AtomId) : Option (List Char) := m.contentsWithin mode m.atoms.size a

/-- The text of a value, if its print ends. -/
def text? (m : Machine) (mode : Mode) (v : Value) : Option String :=
  (v.render mode (m.contents mode)).map String.ofList

/-- The wording of a failure, if the print of what it shows ends. -/
def message? (m : Machine) (e : EvalError) : Option String := e.message (m.contents .readable)

end Machine

end MiniLisp

import MiniLisp.Machine.Basic

/-!
# Lifetimes of frames

A frame is owned by what holds it from outside, by the frames below it, by the closures that captured it wherever
they are kept, and an atom by whatever holds it. A rooted builtin does not own its root. What is owned by nothing that
is still there is gone, and with it what only it owned. Hence what is there is the largest set of frames and atoms of
which each is owned from outside or by a member of the set; it is found by taking away, again and again, what has no
owner left.

* `Machine.isAlive`: whether a frame is still there.
-/

namespace MiniLisp

/-- Frames and atoms. -/
structure Owned where
  frames : List FrameId
  atoms : List AtomId

namespace Owned

def none : Owned := ⟨[], []⟩

/-- Puts together two lots. -/
def union (a b : Owned) : Owned := ⟨a.frames ++ b.frames, a.atoms ++ b.atoms⟩

end Owned

namespace Value

mutual

/-- The frames and atoms that a value owns. -/
def owned : Value → Owned
  | list xs | vector xs => ownedItems xs
  | map es => ownedEntries es
  | closure _ _ body captured _ => ⟨captured :: (owned body).frames, (owned body).atoms⟩
  | atom a => ⟨[], [a]⟩
  | _ => .none

def ownedItems : List Value → Owned
  | [] => .none
  | x :: xs => (owned x).union (ownedItems xs)

def ownedEntries : List (Key × Value) → Owned
  | [] => .none
  | (_, x) :: es => (owned x).union (ownedEntries es)

end

end Value

namespace Frame

/-- The frames and atoms that a frame owns. -/
def owned (f : Frame) : Owned :=
  f.bindings.foldl (fun acc b => (b.2.owned).union acc) ⟨f.outer.toList, []⟩

end Frame

/-- What is held from outside: by handles and by evaluations under way. -/
structure Holds where
  frames : List FrameId
  values : List Value

namespace Holds

def none : Holds := ⟨[], []⟩

def frame (h : Holds) (e : FrameId) : Holds := { h with frames := e :: h.frames }

def value (h : Holds) (v : Value) : Holds := { h with values := v :: h.values }

def items (h : Holds) (vs : List Value) : Holds := { h with values := vs ++ h.values }

def owned (h : Holds) : Owned :=
  h.values.foldl (fun acc v => v.owned.union acc) ⟨h.frames, []⟩

end Holds

/-- A set of numbers below a bound, as flags. -/
abbrev Flags := Array Bool

namespace Flags

def has (a : Flags) (i : Nat) : Bool := a.getD i false

/-- The set with further numbers in it, so far as they lie below its bound. -/
def addAll (a : Flags) (is : List Nat) : Flags := is.foldl (fun acc i => acc.setIfInBounds i true) a

/-- The numbers of the first set that the second one has as well. -/
def inter (a b : Flags) : Flags := a.mapIdx fun i flag => flag && b.has i

end Flags

/-- Which frames and which atoms belong to a set. -/
structure Marks where
  frames : Flags
  atoms : Flags
  deriving DecidableEq

namespace Marks

def add (s : Marks) (o : Owned) : Marks := ⟨s.frames.addAll o.frames, s.atoms.addAll o.atoms⟩

def addEach (s : Marks) (os : List Owned) : Marks := os.foldl add s

/-- What belongs to both sets. -/
def inter (s t : Marks) : Marks := ⟨s.frames.inter t.frames, s.atoms.inter t.atoms⟩

end Marks

namespace Machine

/-- No frame and no atom. -/
def unmarked (m : Machine) : Marks :=
  ⟨Array.replicate m.frames.size false, Array.replicate m.atoms.size false⟩

/-- Every frame and every atom. -/
def marked (m : Machine) : Marks :=
  ⟨Array.replicate m.frames.size true, Array.replicate m.atoms.size true⟩

/-- What a frame owns, if it belongs to the set. -/
def frameOwned (m : Machine) (s : Marks) (e : FrameId) : Owned :=
  match s.frames.has e, m.frames[e]? with
  | true, some f => f.owned
  | _, _ => .none

/-- What an atom owns, if it belongs to the set. -/
def atomOwned (m : Machine) (s : Marks) (a : AtomId) : Owned :=
  if s.atoms.has a then (m.atomValue a).owned else .none

/-- What is held from outside or owned by a member of the set. -/
def ownedFrom (m : Machine) (held : Holds) (s : Marks) : Marks :=
  ((m.unmarked.add held.owned).addEach ((List.range m.frames.size).map (m.frameOwned s))).addEach
    ((List.range m.atoms.size).map (m.atomOwned s))

/-- The members of the set that have an owner. -/
def kept (m : Machine) (held : Holds) (s : Marks) : Marks := s.inter (m.ownedFrom held s)

/-- Takes away what has no owner left, at most so often. -/
def sweep (m : Machine) (held : Holds) : Nat → Marks → Marks
  | 0, s => s
  | rounds + 1, s => if m.kept held s = s then s else sweep m held rounds (m.kept held s)

/-- What is there. Every round but the last takes something away. -/
def survivors (m : Machine) (held : Holds) : Marks :=
  m.sweep held (m.frames.size + m.atoms.size + 1) m.marked

/-- Whether a frame is still there. What lies outwards of a frame that is held surely is. -/
def isAlive (m : Machine) (held : Holds) (e : FrameId) : Bool :=
  held.frames.any (fun h => (m.chain h).contains e) || (m.survivors held).frames.has e

end Machine

end MiniLisp

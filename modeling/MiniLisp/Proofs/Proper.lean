import Mathlib
import MiniLisp.Proofs.Closed

/-!
# Proper values

A value is proper if no closure in it has a parameter with the name of the rest marker, and a machine is if its frames
and atoms have such values only. A closure is made of the names that the first operand of `fn*` lists, if they spell a
parameter list, and a macro has the parameters of the closure that it is made of. So on closed machines this is an
invariant.

* `Value.Proper`: proper values, a hereditary condition (`Value.hereditary_proper`).
* `Machine.Proper`: proper machines.
* `Invariant.signatures`: closed machines that are proper keep to an invariant (`Invariant.signatures_holds`).
-/

namespace MiniLisp

namespace Value

/-- A value in which no closure has a parameter with the name of the rest marker. -/
inductive Proper : Value → Prop
  | nil : Proper .nil
  | bool (b : Bool) : Proper (.bool b)
  | int (n : Int64) : Proper (.int n)
  | float (x : Float) : Proper (.float x)
  | text (s : String) : Proper (.text s)
  | symbol (name : String) : Proper (.symbol name)
  | keyword (name : String) : Proper (.keyword name)
  | list {xs : List Value} (h : ∀ x ∈ xs, Proper x) : Proper (.list xs)
  | vector {xs : List Value} (h : ∀ x ∈ xs, Proper x) : Proper (.vector xs)
  | map {es : Entries} (h : ∀ e ∈ es, Proper e.2) : Proper (.map es)
  | builtin (b : Builtin) : Proper (.builtin b)
  | rooted (b : Rooted) (root : FrameId) : Proper (.rooted b root)
  | closure {id : ClosureId} {params : Params} {body : Value} {captured : FrameId} {isMacro : Bool}
      (hp : params.Proper) (hb : Proper body) : Proper (.closure id params body captured isMacro)
  | atom (a : AtomId) : Proper (.atom a)

/-- Data have no closures in them. -/
theorem Proper.of_isData {v : Value} (h : v.IsData) : v.Proper := by
  induction h with
  | list _ ih => exact .list ih
  | vector _ ih => exact .vector ih
  | map _ ih => exact .map ih
  | nil => exact .nil
  | bool b => exact .bool b
  | int n => exact .int n
  | float x => exact .float x
  | text s => exact .text s
  | symbol name => exact .symbol name
  | keyword name => exact .keyword name

/-- A list, a vector or a map is proper exactly if what is in it is. -/
theorem hereditary_proper : Hereditary Proper where
  data := .of_isData
  list := ⟨fun h => by cases h with | list h => exact h, .list⟩
  vector := ⟨fun h => by cases h with | vector h => exact h, .vector⟩
  map := ⟨fun h => by cases h with | map h => exact h, .map⟩

/-- A closure is proper exactly if its parameters and its body are. -/
theorem proper_closure {id : ClosureId} {params : Params} {body : Value} {captured : FrameId} {isMacro : Bool} :
    (closure id params body captured isMacro).Proper ↔ params.Proper ∧ body.Proper :=
  ⟨fun h => by cases h with | closure hp hb => exact ⟨hp, hb⟩, fun ⟨hp, hb⟩ => .closure hp hb⟩

end Value

/-- The parameters that names spell are proper. -/
theorem Step.proper_signature {v : Value} {params : Params} (h : signature v = .ok params) : params.Proper := by
  unfold signature at h
  split at h
  · cases h
  · split at h
    · cases h
    · next names _ =>
      cases hp : Params.ofNames? names with
      | error fault =>
        rw [hp] at h
        cases h
      | ok p =>
        rw [hp] at h
        cases h
        exact (Params.ofNames?_eq_ok.1 hp).2

namespace Machine

/-- A machine in which no closure has a parameter with the name of the rest marker. -/
structure Proper (m : Machine) : Prop where
  frame {e : FrameId} {g : Frame} (h : m.frames[e]? = some g) : ∀ b ∈ g.bindings, b.2.Proper
  atom {a : AtomId} {v : Value} (h : m.atoms[a]? = some v) : v.Proper

end Machine

/-! ## Proper machines as an invariant -/

namespace Invariant

/-- No reference is astray, and all values are proper. -/
def signatures : Invariant :=
  { references with
    value := Value.Proper
    parameters := Params.Proper
    hereditary := Value.hereditary_proper
    builtin := .builtin
    rooted := .rooted
    atom := .atom
    closure := Value.proper_closure
    signature := Step.proper_signature }

theorem signatures_holds {m : Machine} : signatures.Holds m ↔ m.Closed ∧ m.Proper := by
  refine ⟨fun h => ⟨⟨h.frameWithin, h.outer, fun hv => (h.atom hv).within⟩,
    fun hg b hb => (h.frame hg b hb).2, fun hv => (h.atom hv).2⟩, fun ⟨closed, proper⟩ => ?_⟩
  exact ⟨fun hg b hb => ⟨(closed.holds.frame hg b hb).within, proper.frame hg b hb⟩, closed.outer,
    fun hv => ⟨closed.atom hv, proper.atom hv⟩⟩

end Invariant

end MiniLisp

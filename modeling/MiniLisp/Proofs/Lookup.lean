import Mathlib
import MiniLisp.Proofs.Ownership

/-!
# Lookup

Outwards of a frame lie other frames, up to a root (`Machine.Outwards`). A name means what the first of them binds it to
that binds it at all. So a name that is bound in one frame means something else only where that frame lies outwards and
no frame before it binds the name.

* `Machine.search`: the search for a name, which goes outwards as long as it may.
* `Machine.Lexical`: what frames lie outwards, what the search finds there, and what a binding changes.
* `lookup_is_innermost_first`: machines in sessions are so at every time.
-/

namespace MiniLisp

namespace Machine

/-- A frame and the frames outwards, up to a root. -/
inductive Outwards (m : Machine) : FrameId → List FrameId → Prop
  | root {e : FrameId} {bs : Bindings} (h : m.frames[e]? = some ⟨bs, none⟩) : Outwards m e [e]
  | inner {e o : FrameId} {bs : Bindings} {es : List FrameId} (h : m.frames[e]? = some ⟨bs, some o⟩)
      (hs : Outwards m o es) : Outwards m e (e :: es)

/-- What a frame itself binds a name to. -/
def bound? (m : Machine) (name : String) (e : FrameId) : Option Value :=
  m.frames[e]?.bind fun f => f.bindings.find? name

/-- The search for a name from a frame outwards, with no bound on how far it goes; `none` if it goes on for ever. -/
def search (m : Machine) (name : String) (e : FrameId) : Option (Option Value) :=
  match m.bound? name e with
  | some v => some (some v)
  | none =>
    match m.frames[e]?.bind Frame.outer with
    -- named by a tactic, as `evaluateFrom` is: the body then holds no mark of where in the file the call stands
    | some o => (by apply search : Machine → String → FrameId → Option (Option Value)) m name o
    | none => some none
partial_fixpoint

/-- A frame is among some frames, and none that stands before it binds the name. -/
def Foremost (m : Machine) (name : String) (e : FrameId) (es : List FrameId) : Prop :=
  e ∈ es ∧ ∀ n ∈ es.takeWhile (· ≠ e), (m.bound? name n).isNone = true

instance (m : Machine) (name : String) (e : FrameId) (es : List FrameId) : Decidable (m.Foremost name e es) :=
  inferInstanceAs (Decidable (_ ∧ _))

/-- Every frame lies below a root, with finitely many other frames between them. The search for a name ends with what
the first of these binds it to that binds it. Binding a name in a frame leaves the frames where they are, and where a
name is looked up, it finds the new value if the frame is met before any other one that binds the name; otherwise it
finds what it found before. -/
structure Lexical (m : Machine) : Prop where
  outwards {e : FrameId} (he : e < m.frames.size) : ∃ es, m.Outwards e es ∧ es.Nodup
  search {e : FrameId} {es : List FrameId} (h : m.Outwards e es) (name : String) :
    m.search name e = some (es.findSome? (m.bound? name))
  lookup {e : FrameId} {es : List FrameId} (h : m.Outwards e es) (name : String) :
    m.lookup e name = es.findSome? (m.bound? name)
  bind {e : FrameId} {es : List FrameId} (h : m.Outwards e es) (e' : FrameId) (name' : String) (v : Value)
      (name : String) :
    (m.bind e' name' v).Outwards e es ∧
      (m.bind e' name' v).search name e = some ((m.bind e' name' v).lookup e name) ∧
      (m.bind e' name' v).lookup e name =
        if name = name' ∧ m.Foremost name e' es then some v else m.lookup e name

variable {m : Machine} {e : FrameId} {es : List FrameId} {name : String}

/-! ## Frames outwards -/

theorem Closed.exists_outwards (h : m.Closed) (he : e < m.frames.size) : ∃ es, m.Outwards e es := by
  induction e using Nat.strong_induction_on with
  | _ e ih =>
    obtain ⟨⟨bs, outer⟩, hf⟩ : ∃ f, m.frames[e]? = some f := ⟨_, Array.getElem?_eq_getElem he⟩
    cases outer with
    | none => exact ⟨[e], .root hf⟩
    | some o =>
      have older : o < e := h.outer hf rfl
      obtain ⟨es, hes⟩ := ih o older (older.trans he)
      exact ⟨e :: es, .inner hf hes⟩

/-- All frames outwards are older ones. -/
theorem Outwards.le (h : m.Outwards e es) (hm : m.Nested) : ∀ n ∈ es, n ≤ e := by
  induction h with
  | root => simp
  | @inner e o bs es hf _ ih =>
    have older : o < e := hm e o _ hf rfl
    intro n hn
    rcases List.mem_cons.1 hn with rfl | hn
    · exact le_rfl
    · exact (ih n hn).trans older.le

theorem Outwards.nodup (h : m.Outwards e es) (hm : m.Nested) : es.Nodup := by
  induction h with
  | root => exact List.nodup_singleton _
  | @inner e o bs es hf hs ih =>
    have older : o < e := hm e o _ hf rfl
    exact List.nodup_cons.2 ⟨fun hn => (hs.le hm e hn).not_gt older, ih⟩

/-! ## What is found -/

/-- Where the frames outwards come to an end, the search does so, too. -/
theorem Outwards.search_eq (h : m.Outwards e es) (name : String) :
    m.search name e = some (es.findSome? (m.bound? name)) := by
  induction h with
  | root hf =>
    rw [search, List.findSome?_cons]
    cases m.bound? name _ with
    | some v => rfl
    | none => simp [hf]
  | inner hf _ ih =>
    rw [search, List.findSome?_cons]
    cases m.bound? name _ with
    | some v => rfl
    | none => simp [hf, ih]

theorem Outwards.lookup_eq (h : m.Outwards e es) (hm : m.Nested) (name : String) :
    m.lookup e name = es.findSome? (m.bound? name) := by
  induction h with
  | root hf =>
    rw [hm.lookup_eq hf, List.findSome?_cons, bound?, hf, Option.bind_some]
    cases Bindings.find? name _ <;> rfl
  | inner hf _ ih =>
    rw [hm.lookup_eq hf, List.findSome?_cons, bound?, hf, Option.bind_some, Option.bind_some, ih]
    cases Bindings.find? name _ <;> rfl

/-! ## What a binding changes -/

theorem getElem?_bind (m : Machine) (e' : FrameId) (name : String) (v : Value) (e : FrameId) :
    (m.bind e' name v).frames[e]? =
      if e' = e then m.frames[e]?.map fun f => ⟨f.bindings.insert name v, f.outer⟩ else m.frames[e]? := by
  rw [Machine.bind, Array.getElem?_modify]

theorem Outwards.bind (h : m.Outwards e es) (e' : FrameId) (name : String) (v : Value) :
    (m.bind e' name v).Outwards e es := by
  have kept {e : FrameId} {bs : Bindings} {outer : Option FrameId} (hf : m.frames[e]? = some ⟨bs, outer⟩) :
      ∃ bs, (m.bind e' name v).frames[e]? = some ⟨bs, outer⟩ := by
    rw [getElem?_bind, hf]
    split
    · exact ⟨_, rfl⟩
    · exact ⟨_, rfl⟩
  induction h with
  | root hf =>
    obtain ⟨bs, hf⟩ := kept hf
    exact .root hf
  | inner hf _ ih =>
    obtain ⟨bs, hf⟩ := kept hf
    exact .inner hf ih

theorem Outwards.lt (h : m.Outwards e es) : ∀ n ∈ es, n < m.frames.size := by
  induction h with
  | root hf => simpa using (Array.getElem?_eq_some_iff.1 hf).1
  | inner hf _ ih => exact List.forall_mem_cons.2 ⟨(Array.getElem?_eq_some_iff.1 hf).1, ih⟩

/-- A frame that is there binds the name to the value. -/
theorem bound?_bind (he : e < m.frames.size) (e' : FrameId) (name' : String) (v : Value) (name : String) :
    (m.bind e' name' v).bound? name e = if e = e' ∧ name = name' then some v else m.bound? name e := by
  have there : m.frames[e]? = some m.frames[e] := Array.getElem?_eq_getElem he
  rw [bound?, bound?, getElem?_bind, there]
  by_cases same : e' = e
  · subst same
    simp [Bindings.find?_insert, eq_comm]
  · simp [same, Ne.symm same]

theorem foremost_cons {e n : FrameId} :
    m.Foremost name e (n :: es) ↔ n = e ∨ n ≠ e ∧ m.bound? name n = none ∧ m.Foremost name e es := by
  unfold Foremost
  by_cases hn : n = e
  · simp [hn]
  · simp [hn, Ne.symm hn]
    tauto

/-- What the first of some frames to bind a name binds it to, once a name is bound in one of them. -/
theorem findSome?_bind (hes : ∀ n ∈ es, n < m.frames.size) (e' : FrameId) (name' : String) (v : Value)
    (name : String) :
    es.findSome? ((m.bind e' name' v).bound? name) =
      if name = name' ∧ m.Foremost name e' es then some v else es.findSome? (m.bound? name) := by
  induction es with
  | nil => simp [Foremost]
  | cons n es ih =>
    obtain ⟨there, others⟩ := List.forall_mem_cons.1 hes
    rw [List.findSome?_cons, List.findSome?_cons, bound?_bind there, ih others]
    simp only [foremost_cons]
    by_cases hn : n = e' <;> by_cases hk : name = name' <;> cases m.bound? name n <;> simp [hn, hk]

/-- What frames refer to is there, and older. -/
theorem Closed.lexical (h : m.Closed) : m.Lexical where
  outwards he := by
    obtain ⟨es, hes⟩ := h.exists_outwards he
    exact ⟨es, hes, hes.nodup h.nested⟩
  search hes name := hes.search_eq name
  lookup hes name := hes.lookup_eq h.nested name
  bind hes e' name' v name := by
    have after := hes.bind e' name' v
    have nested := h.nested.bind e' name' v
    refine ⟨after, ?_, ?_⟩
    · rw [after.search_eq, after.lookup_eq nested]
    · rw [after.lookup_eq nested, hes.lookup_eq h.nested, findSome?_bind hes.lt]

end Machine

/-! ## Sessions -/

/-- **Lookup is innermost-first, and binding is local**, in every session, whatever requests are made of it, and at the
beginning and the end of every evaluation that takes place in it. -/
theorem lookup_is_innermost_first (s : Session) (hs : s.Reachable) :
    s.machine.Lexical ∧
    ∀ (recorded : Option Level) (waiting : List FrameId) (ctx : Context) (e : FrameId) (form : Value) (m : Machine),
      s.Running recorded waiting ctx e form m →
        m.Lexical ∧ ∀ (r : Except EvalError Value) (n : Machine), evaluate ctx e form m = some (r, n) → n.Lexical := by
  refine ⟨hs.closed.lexical, fun recorded waiting ctx e form m running => ?_⟩
  have here := running.grounded hs
  exact ⟨here.closed.lexical, fun r n hr => (here.closed_of_evaluate hr).lexical⟩

/-- A session with a frame below a root. -/
def innerSession : Session :=
  ⟨⟨#[⟨[], none⟩, ⟨[], some 0⟩], #[], 0, "", #[]⟩, [("inner", 1), (Session.mainName, 0)], fun _ => .ok ""⟩

/-- The form `(def! x 1)`. -/
def innerForm : Value := .list [.symbol "def!", .symbol "x", .int 1]

theorem reachable_innerSession : innerSession.Reachable := by
  have root : Session.perform ⟨.empty, [], fun _ => .ok ""⟩ none (.create Session.mainName true) =
      some (.done, ⟨⟨#[⟨[], none⟩], #[], 0, "", #[]⟩, [(Session.mainName, 0)], fun _ => .ok ""⟩) := rfl
  have inner : Session.perform ⟨⟨#[⟨[], none⟩], #[], 0, "", #[]⟩, [(Session.mainName, 0)], fun _ => .ok ""⟩ none
      (.child "inner" Session.mainName) = some (.done, innerSession) := rfl
  exact .perform (.perform (.empty _) root) inner

/-- What the root binds is seen in the inner frame, but not once that has a binding of its own. -/
theorem lookup_is_innermost_first_inner :
    (innerSession.machine.bind 0 "x" (.int 1)).lookup 1 "x" = some (.int 1) ∧
      ∃ n, evaluate (innerSession.context none) 1 innerForm innerSession.machine = some (.ok (.int 1), n) ∧
        (n.bind 0 "x" (.int 2)).lookup 1 "x" = some (.int 1) := by
  obtain ⟨start, running⟩ := lookup_is_innermost_first innerSession reachable_innerSession
  have outwards : innerSession.machine.Outwards 1 [1, 0] := .inner rfl (.root rfl)
  have read : Value.read? "(def! x 1)".toList = .ok innerForm := by cbv
  have kept : innerSession.frame? "inner" = some 1 := rfl
  have ran : evaluate (innerSession.context none) 1 innerForm innerSession.machine =
      some (.ok (.int 1), innerSession.machine.bind 1 "x" (.int 1)) := evaluate_of_evalWithin 2 _ _ _ _ _ rfl
  have ended := (running none [] _ 1 _ _ (.text (.first kept read))).2 _ _ ran
  refine ⟨(start.bind outwards 0 "x" (.int 1) "x").2.2, _, ran, ?_⟩
  exact (ended.bind (outwards.bind 1 "x" (.int 1)) 0 "x" (.int 2) "x").2.2

end MiniLisp

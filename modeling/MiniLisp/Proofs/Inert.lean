import Mathlib
import MiniLisp.Proofs.Adequacy
import MiniLisp.Proofs.Prints
import MiniLisp.Proofs.Swap
import MiniLisp.Proofs.Trace

/-!
# Values that evaluate to themselves

What is neither looked up nor called stays as it is: a value in which no symbol stands in the place of a form, and no
list but an empty one. It evaluates to itself in all frames and on all machines, and nothing changes. Trace records are
the only thing that can be seen of it; they show the value, and a record of an atom that contains itself has no end.

* `Value.HasPart`: the forms that are evaluated when a value is.
* `Value.Inert`: no such form is a symbol or a call.
* `inert_values_evaluate_to_themselves`: such values evaluate to themselves.
-/

namespace MiniLisp

/-! ## Inert values -/

namespace Value

/-- The forms that stand in the place of a form in a value: itself, and those in the elements of a vector and in the
values of a map. -/
inductive HasPart : Value → Value → Prop
  | self (v : Value) : HasPart v v
  | element {xs : List Value} {x w : Value} (hx : x ∈ xs) (h : HasPart x w) : HasPart (vector xs) w
  | value {es : Entries} {entry : Key × Value} {w : Value} (hx : entry ∈ es) (h : HasPart entry.2 w) :
    HasPart (map es) w

/-- In the place of a form there is neither a symbol nor a list with elements. -/
def Inert (v : Value) : Prop := ∀ w, v.HasPart w → (∀ name, w ≠ symbol name) ∧ ∀ x xs, w ≠ list (x :: xs)

variable {v : Value} {xs : List Value} {es : Entries}

/-- A vector is inert when its items are. -/
@[simp]
theorem inert_vector : (vector xs).Inert ↔ ∀ x ∈ xs, x.Inert := by
  refine ⟨fun h x hx w hw => h w (.element hx hw), fun h w hw => ?_⟩
  cases hw with
  | self => exact ⟨nofun, nofun⟩
  | element hx hw => exact h _ hx w hw

/-- A map is inert when its values are; keys always are. -/
@[simp]
theorem inert_map : (map es).Inert ↔ ∀ entry ∈ es, entry.2.Inert := by
  refine ⟨fun h x hx w hw => h w (.value hx hw), fun h w hw => ?_⟩
  cases hw with
  | self => exact ⟨nofun, nofun⟩
  | value hx hw => exact h _ hx w hw

theorem inert_of_isLiteral (h : v.isLiteral = true) : v.Inert := by
  intro w hw
  cases hw with
  | self =>
    constructor
    · rintro name rfl
      cases h
    · rintro x xs rfl
      cases h
  | element => cases h
  | value => cases h

theorem inert_empty : (list []).Inert := by
  intro w hw
  cases hw
  exact ⟨nofun, nofun⟩

end Value

/-! ## Evaluation -/

/-- What some atoms hold has a print, if trace records are wanted. -/
def Context.CanShow (ctx : Context) (m : Machine) (as : List AtomId) : Prop :=
  ctx.records .trace = true → ∀ a ∈ as, (m.contents .readable a).isSome = true

variable {ctx : Context} {e : FrameId} {m n : Machine} {as bs : List AtomId} {v : Value}

namespace Context.CanShow

theorem left (h : ctx.CanShow m (as ++ bs)) : ctx.CanShow m as := fun ht a ha => h ht a (List.mem_append_left _ ha)

theorem right (h : ctx.CanShow m (as ++ bs)) : ctx.CanShow m bs := fun ht a ha => h ht a (List.mem_append_right _ ha)

/-- Whether cells can be shown depends on the atoms, which trace records leave alone. -/
theorem alike (h : ctx.CanShow m as) (hn : ctx.Alike n m) : ctx.CanShow n as := by
  have atoms : n.atoms = m.atoms := by
    rw [hn.eq_withRecords]
    rfl
  intro ht
  rw [Machine.contents_of_atoms_eq atoms]
  exact h ht

/-- A value is recorded on its evaluation. -/
theorem recorded (h : ctx.CanShow m v.cells) (what : String) :
    ∃ n, Recorded ctx .trace (Message.value what v) m n ∧ ctx.Alike n m := by
  refine Context.record_alike_of_isSome fun ht => ?_
  rw [Message.value, Option.isSome_map]
  exact Value.render_isSome_iff.2 (h ht)

end Context.CanShow

/-- A literal is given back, with a trace record that its cells let happen. -/
theorem evaluates_literal (hv : v.isLiteral = true) (h : ctx.CanShow m v.cells) :
    ∃ n, Evaluates ctx e v m [] (.ok v, n) ∧ ctx.Alike n m := by
  obtain ⟨n, hr, alike⟩ := h.recorded "evaluate_ast "
  have noCall : m.macroCall? e v = none := by cases v <;> first | rfl | cases hv
  exact ⟨n, .expanded (t := []) (.done noCall) (.literal hv hr), alike⟩

mutual

/-- An inert value is derived from itself. The induction follows the value; the contexts vary, as items are evaluated
while the earlier ones are held. -/
theorem evaluates_inert : ∀ {v : Value}, v.Inert → ∀ {ctx : Context} {e : FrameId} {m : Machine},
    ctx.CanShow m v.cells → ∃ n, Evaluates ctx e v m [] (.ok v, n) ∧ ctx.Alike n m
  | .vector xs, hv, ctx, e, m, h => by
    obtain ⟨m₁, hr, first⟩ := h.recorded "evaluate_ast "
    have later : (ctx.hold e (.vector xs)).CanShow m₁ (Value.cellsItems xs) := h.alike first
    obtain ⟨n, hx, rest⟩ := elements_inert (e := e) (Value.inert_vector.1 hv) later
    exact ⟨n, .expanded (t := []) (.done rfl) (.vector hr hx), rest.trans first⟩
  | .map es, hv, ctx, e, m, h => by
    obtain ⟨m₁, hr, first⟩ := h.recorded "evaluate_ast "
    have later : (ctx.hold e (.map es)).CanShow m₁ (Value.cellsEntries es) := h.alike first
    obtain ⟨n, hx, rest⟩ := entryValues_inert (e := e) (Value.inert_map.1 hv) later
    exact ⟨n, .expanded (t := []) (.done rfl) (.map hr hx), rest.trans first⟩
  | .list [], _, ctx, e, m, _ => ⟨m, .expanded (t := []) (.done rfl) .empty, .refl ctx m⟩
  | .list (x :: xs), hv, _, _, _, _ => absurd rfl ((hv _ (.self _)).2 x xs)
  | .symbol name, hv, _, _, _, _ => absurd rfl ((hv _ (.self _)).1 name)
  | .nil, _, _, _, _, h | .bool _, _, _, _, _, h | .int _, _, _, _, _, h | .float _, _, _, _, _, h
  | .text _, _, _, _, _, h | .keyword _, _, _, _, _, h | .builtin _, _, _, _, _, h | .rooted _ _, _, _, _, _, h
  | .closure _ _ _ _ _, _, _, _, _, h | .atom _, _, _, _, _, h => evaluates_literal rfl h

theorem elements_inert : ∀ {xs : List Value}, (∀ x ∈ xs, x.Inert) → ∀ {ctx : Context} {e : FrameId} {m : Machine},
    ctx.CanShow m (Value.cellsItems xs) → ∃ n, Elements ctx e xs m [] (.ok xs, n) ∧ ctx.Alike n m
  | [], _, ctx, _, m, _ => ⟨m, .nil, .refl ctx m⟩
  | x :: xs, hxs, ctx, e, m, h => by
    obtain ⟨hx, hxs⟩ := List.forall_mem_cons.1 hxs
    obtain ⟨m₁, hv, first⟩ := evaluates_inert (e := e) hx h.left
    have later : (ctx.holdValue x).CanShow m₁ (Value.cellsItems xs) := h.right.alike first
    obtain ⟨n, hvs, rest⟩ := elements_inert (e := e) hxs later
    exact ⟨n, .cons hv hvs, rest.trans first⟩

theorem entryValues_inert : ∀ {es : Entries}, (∀ entry ∈ es, entry.2.Inert) → ∀ {ctx : Context} {e : FrameId}
    {m : Machine}, ctx.CanShow m (Value.cellsEntries es) →
    ∃ n, EntryValues ctx e es m [] (.ok es, n) ∧ ctx.Alike n m
  | [], _, ctx, _, m, _ => ⟨m, .nil, .refl ctx m⟩
  | (k, x) :: es, hes, ctx, e, m, h => by
    obtain ⟨hx, hes⟩ := List.forall_mem_cons.1 hes
    obtain ⟨m₁, hv, first⟩ := evaluates_inert (e := e) hx h.left
    have later : (ctx.holdValue x).CanShow m₁ (Value.cellsEntries es) := h.right.alike first
    obtain ⟨n, hvs, rest⟩ := entryValues_inert (e := e) hes later
    exact ⟨n, .cons hv hvs, rest.trans first⟩

end

/-- A value of which a record has no end is not evaluated to the end where such records are wanted. -/
theorem evaluate_eq_none_of_text? (hl : ∀ xs, v ≠ .list xs) (ht : ctx.records .trace = true)
    (hn : m.text? .readable v = none) : evaluate ctx e v m = none := by
  have noCall : m.macroCall? e v = none := by
    cases v with
    | list xs => exact absurd rfl (hl xs)
    | _ => rfl
  have record : Run.recordValue ctx .trace "evaluate_ast " v m = none := by
    have message : Message.value "evaluate_ast " v (m.contents .readable) = none :=
      Option.map_eq_none_iff.2 (Option.map_eq_none_iff.1 hn)
    simp only [Run.recordValue, Run.record, ht, if_true, Run.bind, Run.gets?, message]
  rw [evaluate_settled noCall, Step.expanded_plain hl, bind_done]
  change Run.bind (Run.recordValue ctx .trace "evaluate_ast " v) _ m = none
  simp only [Run.bind, record]

/-- **Inert values evaluate to themselves.** A value that has no symbol and no list with elements in the place of a
form, through the elements of vectors and the values of maps, evaluates to itself in every frame and on every machine,
whatever macros are defined there: the same value, with the same atoms and closures in it, and the machine is left as it
is, down to what has been printed. If trace records are wanted, they are all that is added; one that shows an atom that
contains itself has no end. -/
theorem inert_values_evaluate_to_themselves (v : Value) (hv : v.Inert) (ctx : Context) (e : FrameId) (m : Machine) :
    (ctx.records .trace = false → evaluate ctx e v m = some (.ok v, m)) ∧
    (ctx.records .trace = true →
      ((m.text? .readable v).isSome = true → ∃ n, evaluate ctx e v m = some (.ok v, n) ∧ n.untraced = m.untraced) ∧
      (m.text? .readable v = none → evaluate ctx e v m = none)) := by
  refine ⟨fun ht => ?_, fun ht => ⟨fun hs => ?_, fun hn => ?_⟩⟩
  · have canShow : ctx.CanShow m v.cells := fun wanted => nomatch ht.symm.trans wanted
    obtain ⟨n, hr, alike⟩ := evaluates_inert (e := e) hv canShow
    rw [Context.Alike, if_neg (ht ▸ Bool.false_ne_true)] at alike
    exact alike ▸ hr.run
  · rw [Machine.text?, Option.isSome_map] at hs
    have canShow : ctx.CanShow m v.cells := fun _ => Value.render_isSome_iff.1 hs
    obtain ⟨n, hr, alike⟩ := evaluates_inert (e := e) hv canShow
    rw [Context.Alike, if_pos ht] at alike
    exact ⟨n, hr.run, alike⟩
  · refine evaluate_eq_none_of_text? ?_ ht hn
    rintro (_ | ⟨x, xs⟩) rfl
    · cases hn
    · exact (hv _ (.self _)).2 x xs rfl

/-- A root with a macro, and with an atom that contains itself. -/
def rootWithMacro : Machine :=
  { Machine.empty with
    frames := #[⟨[("twice", .closure 0 ⟨["x"], none⟩ (.symbol "x") 0 true)], none⟩]
    atoms := #[.atom 0]
    closures := 1 }

/-- A vector of a map, with the atom and the macro in it, and of an empty list. -/
def inertVector : Value :=
  .vector [.map [(.text "cell", .atom 0), (.keyword "twice", .closure 0 ⟨["x"], none⟩ (.symbol "x") 0 true)], .list []]

/-- Only a record keeps the vector from evaluating to itself. -/
theorem inert_values_evaluate_to_themselves_vector :
    evaluate ⟨fun _ => .ok "", none, .none⟩ 0 inertVector rootWithMacro = some (.ok inertVector, rootWithMacro) ∧
      evaluate ⟨fun _ => .ok "", some .trace, .none⟩ 0 inertVector rootWithMacro = none := by
  have inert : inertVector.Inert := by
    simp only [inertVector, Value.inert_vector, Value.inert_map, List.forall_mem_cons]
    exact ⟨⟨Value.inert_of_isLiteral rfl, Value.inert_of_isLiteral rfl, nofun⟩, Value.inert_empty, nofun⟩
  have evaluates (ctx : Context) := inert_values_evaluate_to_themselves inertVector inert ctx 0 rootWithMacro
  exact ⟨(evaluates _).1 rfl, ((evaluates _).2 rfl).2 rfl⟩

end MiniLisp

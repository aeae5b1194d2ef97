import MiniLisp.Proofs.Swap

/-!
# Bad markers

A marker of a template has one operand. Whether a list is a marker depends on where it stands: `splice-unquote` marks
an element of a sequence only, and neither a marker nor a map is looked into. A template with a bad marker has no form
that rebuilds it, and so none of its expressions is evaluated.

* `Value.BadMarkerAt`: a marker with any other number of operands, at its place: the indices that lead there.
* `Value.Reports`: an outcome that fails if there is a fault anywhere, with the fault at the last place.
* `Value.reports_template`: what the outcome of rewriting a template reports.
* **Bad markers** (`bad_markers_rejected_first`): they are rejected before anything else is done.
-/

namespace MiniLisp

namespace Value

/-- The names of markers. What is spliced in is an element of a sequence. -/
inductive Marks (element : Bool) : String → Prop
  | unquote : Marks element "unquote"
  | splice (he : element = true) : Marks element "splice-unquote"

/-- A list with the name of a marker at its head. -/
def IsMarker (element : Bool) (t : Value) : Prop := ∃ name rest, Marks element name ∧ t = list (symbol name :: rest)

/-- The fault at a place of a template. The place is reached through sequences that are no markers, and what stands
there is a marker that does not have one operand. -/
inductive BadMarkerAt : Bool → Value → List Nat → ArityError → Prop
  | here {element name rest} (hn : Marks element name) (h : rest.length ≠ 1) :
      BadMarkerAt element (list (symbol name :: rest)) [] ⟨name, .exactly 2, rest.length + 1⟩
  | inside {element t i x place fault} (hm : ¬t.IsMarker element) (hi : t.elements[i]? = some x)
      (h : BadMarkerAt true x place fault) : BadMarkerAt element t (i :: place) fault

/-- The fault at a place of the elements of a sequence. -/
def ItemFaults (xs : List Value) (place : List Nat) (fault : ArityError) : Prop :=
  ∃ i x rest, place = i :: rest ∧ xs[i]? = some x ∧ BadMarkerAt true x rest fault

/-! ## Markers by their place -/

section Markers

variable {element : Bool} {t x : Value} {xs rest : List Value} {name : String} {place : List Nat} {fault : ArityError}

theorem marked?_eq_none : marked? name t = none ↔ ∀ rest, t ≠ list (symbol name :: rest) := by
  constructor
  · rintro h rest rfl
    rw [marked?_symbol] at h
    cases h
  · intro h
    cases hm : marked? name t with
    | none => rfl
    | some items =>
      obtain ⟨rfl, rest, rfl⟩ := marked?_eq_some hm
      exact absurd rfl (h rest)

theorem not_isMarker : ¬t.IsMarker element ↔
    marked? "unquote" t = none ∧ (element = true → marked? "splice-unquote" t = none) := by
  constructor
  · refine fun h => ⟨marked?_eq_none.2 fun rest ht => ?_, fun he => marked?_eq_none.2 fun rest ht => ?_⟩
    · exact h ⟨_, rest, .unquote, ht⟩
    · exact h ⟨_, rest, .splice he, ht⟩
  · rintro ⟨hu, hs⟩ ⟨name, rest, hn, ht⟩
    cases hn with
    | unquote => exact marked?_eq_none.1 hu rest ht
    | splice he => exact marked?_eq_none.1 (hs he) rest ht

/-- A marker is not looked into. -/
theorem badMarkerAt_marker (hn : Marks element name) :
    BadMarkerAt element (list (symbol name :: rest)) place fault ↔
      place = [] ∧ rest.length ≠ 1 ∧ fault = ⟨name, .exactly 2, rest.length + 1⟩ := by
  constructor
  · intro h
    cases h with
    | here _ h => exact ⟨rfl, h, rfl⟩
    | inside hm => exact absurd ⟨name, rest, hn, rfl⟩ hm
  · rintro ⟨rfl, h, rfl⟩
    exact .here hn h

/-- What is no marker has the faults of its elements. -/
theorem badMarkerAt_elements (hm : ¬t.IsMarker element) :
    BadMarkerAt element t place fault ↔ ItemFaults t.elements place fault := by
  constructor
  · intro h
    cases h with
    | here hn => exact absurd ⟨_, _, hn, rfl⟩ hm
    | inside _ hi h => exact ⟨_, _, _, rfl, hi, h⟩
  · rintro ⟨i, x, rest, rfl, hi, h⟩
    exact .inside hm hi h

/-- An element that is not spliced in has the faults that it has as a template of its own. -/
theorem badMarkerAt_element (hs : marked? "splice-unquote" t = none) :
    BadMarkerAt true t place fault ↔ BadMarkerAt false t place fault := by
  cases hu : marked? "unquote" t with
  | some items =>
    obtain ⟨rfl, rest, rfl⟩ := marked?_eq_some hu
    rw [badMarkerAt_marker .unquote, badMarkerAt_marker .unquote]
  | none =>
    have inner : ¬t.IsMarker true := not_isMarker.2 ⟨hu, fun _ => hs⟩
    have whole : ¬t.IsMarker false := not_isMarker.2 ⟨hu, nofun⟩
    rw [badMarkerAt_elements inner, badMarkerAt_elements whole]

theorem not_itemFaults_nil : ¬ItemFaults [] place fault := by
  rintro ⟨i, x, rest, -, hi, -⟩
  cases hi

theorem itemFaults_cons : ItemFaults (x :: xs) place fault ↔
    (∃ rest, place = 0 :: rest ∧ BadMarkerAt true x rest fault) ∨
      ∃ i rest, place = (i + 1) :: rest ∧ ItemFaults xs (i :: rest) fault := by
  constructor
  · rintro ⟨i, y, rest, rfl, hi, h⟩
    cases i with
    | zero =>
      cases hi
      exact .inl ⟨rest, rfl, h⟩
    | succ i => exact .inr ⟨i, rest, rfl, i, y, rest, rfl, hi, h⟩
  · rintro (⟨rest, rfl, h⟩ | ⟨i, rest, rfl, j, y, _, he, hi, h⟩)
    · exact ⟨0, x, rest, rfl, rfl, h⟩
    · cases he
      exact ⟨i + 1, y, rest, rfl, hi, h⟩

/-- There is one fault at a place. -/
theorem BadMarkerAt.unique {other : ArityError} (h : BadMarkerAt element t place fault)
    (h' : BadMarkerAt element t place other) : fault = other := by
  induction h with
  | here => cases h' with | here => rfl
  | inside _ hi _ ih =>
    cases h' with
    | inside _ hi' h' =>
      cases hi.symm.trans hi'
      exact ih h'

end Markers

/-! ## The fault that is reported -/

/-- The outcome that faults at places call for: a result where there are none, and else the fault at the last place. -/
def Reports {α : Type} (faults : List Nat → ArityError → Prop) : Except ArityError α → Prop
  | .ok _ => ∀ place fault, ¬faults place fault
  | .error fault => ∃ place, faults place fault ∧ ∀ other fault', faults other fault' → other ≤ place

theorem cons_le_cons_iff {i j : Nat} {as bs : List Nat} : i :: as ≤ j :: bs ↔ i < j ∨ i = j ∧ as ≤ bs := by
  rw [le_iff_lt_or_eq, List.cons_lt_cons_iff, le_iff_lt_or_eq, List.cons.injEq]
  tauto

section Reports

variable {α β : Type} {faults faults' : List Nat → ArityError → Prop} {r : Except ArityError α}

theorem Reports.congr (h : Reports faults r) (he : ∀ p f, faults' p f ↔ faults p f) : Reports faults' r := by
  have same : faults' = faults := by
    funext p f
    exact propext (he p f)
  exact same ▸ h

theorem Reports.map (h : Reports faults r) (g : α → β) : Reports faults (r.map g) := by
  cases r <;> exact h

/-- Where there is one fault at a place, what is reported is settled. -/
theorem Reports.eq_error_iff (h : Reports faults r) (hu : ∀ p f f', faults p f → faults p f' → f = f')
    (fault : ArityError) :
    r = .error fault ↔ ∃ place, faults place fault ∧ ∀ other fault', faults other fault' → other ≤ place := by
  constructor
  · rintro rfl
    exact h
  · rintro ⟨place, hp, last⟩
    cases r with
    | ok v => exact absurd hp (h place fault)
    | error other =>
      obtain ⟨place', hp', last'⟩ := h
      have same : place = place' := le_antisymm (last' place fault hp) (last place' other hp')
      rw [hu place fault other hp (same ▸ hp')]

theorem Reports.exists_error_iff (h : Reports faults r) : (∃ fault, r = .error fault) ↔ ∃ p f, faults p f := by
  constructor
  · rintro ⟨fault, rfl⟩
    obtain ⟨place, hp, -⟩ := h
    exact ⟨place, fault, hp⟩
  · rintro ⟨place, fault, hp⟩
    cases r with
    | ok v => exact absurd hp (h place fault)
    | error other => exact ⟨other, rfl⟩

variable {x : Value} {xs : List Value} {tail : Except ArityError β}

/-- A fault of the later elements is reported, whatever the first element is. -/
theorem Reports.later {fault : ArityError} (hxs : Reports (ItemFaults xs) (.error fault : Except ArityError β)) :
    Reports (ItemFaults (x :: xs)) (.error fault : Except ArityError α) := by
  obtain ⟨_, ⟨i, y, rest, rfl, hi, hy⟩, last⟩ := hxs
  refine ⟨(i + 1) :: rest, itemFaults_cons.2 (.inr ⟨i, rest, rfl, i, y, rest, rfl, hi, hy⟩), fun other f h => ?_⟩
  rcases itemFaults_cons.1 h with ⟨more, rfl, -⟩ | ⟨j, more, rfl, hj⟩
  · exact cons_le_cons_iff.2 (.inl (Nat.succ_pos i))
  · have before := cons_le_cons_iff.1 (last _ f hj)
    exact cons_le_cons_iff.2 (before.imp Nat.succ_lt_succ (And.imp_left (congrArg Nat.succ)))

/-- Without faults in the later elements, those of the first one are reported. -/
theorem Reports.first (hxs : ∀ p f, ¬ItemFaults xs p f) (hx : Reports (BadMarkerAt true x) r) :
    Reports (ItemFaults (x :: xs)) r := by
  have only : ∀ p f, ItemFaults (x :: xs) p f ↔ ∃ rest, p = 0 :: rest ∧ BadMarkerAt true x rest f := fun p f =>
    itemFaults_cons.trans (or_iff_left fun ⟨i, rest, _, h⟩ => hxs _ f h)
  cases r with
  | ok v =>
    intro p f h
    obtain ⟨rest, -, h⟩ := (only p f).1 h
    exact hx rest f h
  | error fault =>
    obtain ⟨place, h, last⟩ := hx
    refine ⟨0 :: place, (only _ _).2 ⟨place, rfl, h⟩, fun other f h => ?_⟩
    obtain ⟨rest, rfl, hr⟩ := (only other f).1 h
    exact cons_le_cons_iff.2 (.inr ⟨rfl, last rest f hr⟩)

end Reports

/-- A marker reports that it does not have one operand. -/
theorem reports_operand? {element : Bool} {name : String} (hn : Marks element name) (rest : List Value) :
    Reports (BadMarkerAt element (list (symbol name :: rest))) (operand? name (symbol name :: rest)) := by
  refine Reports.congr ?_ fun p f => badMarkerAt_marker hn
  have bad (h : rest.length ≠ 1) : Reports
      (fun p f => p = [] ∧ rest.length ≠ 1 ∧ f = (⟨name, .exactly 2, rest.length + 1⟩ : ArityError))
      (.error ⟨name, .exactly 2, rest.length + 1⟩ : Except ArityError Value) :=
    ⟨[], ⟨rfl, h, rfl⟩, fun other f h => h.1.le⟩
  match rest, bad with
  | [v], _ => exact fun p f h => h.2.1 rfl
  | [], bad => exact bad (by simp)
  | v :: w :: rest, bad => exact bad (by simp)

mutual

/-- A template has a form that rebuilds it unless there is a bad marker, and then the last one is reported. -/
theorem reports_template : ∀ t : Value, Reports (BadMarkerAt false t) t.template
  | list items => by
    rw [template]
    cases hm : marked? "unquote" (list items) with
    | some marker =>
      obtain ⟨he, rest, rfl⟩ := marked?_eq_some hm
      cases he
      exact reports_operand? .unquote rest
    | none =>
      have plain : ¬(list items).IsMarker false := not_isMarker.2 ⟨hm, nofun⟩
      exact (reports_templateItems items).congr fun p f => badMarkerAt_elements plain
  | vector items => by
    have plain : ¬(vector items).IsMarker false := not_isMarker.2 ⟨rfl, nofun⟩
    rw [template]
    exact ((reports_templateItems items).congr fun p f => badMarkerAt_elements plain).map _
  | nil | bool _ | int _ | float _ | text _ | symbol _ | keyword _ | map _ | builtin _ | rooted _ _ | closure _ _ _ _ _
  | atom _ => fun p f h =>
    not_itemFaults_nil ((badMarkerAt_elements (not_isMarker.2 ⟨rfl, fun _ => rfl⟩)).1 h)

theorem reports_templateItems : ∀ xs : List Value, Reports (ItemFaults xs) (templateItems xs)
  | [] => fun p f => not_itemFaults_nil
  | x :: xs => by
    rw [templateItems]
    have later := reports_templateItems xs
    cases hxs : templateItems xs with
    | error fault =>
      rw [hxs] at later
      exact later.later
    | ok form =>
      rw [hxs] at later
      refine Reports.first later ?_
      cases hs : marked? "splice-unquote" x with
      | some marker =>
        obtain ⟨rfl, rest, rfl⟩ := marked?_eq_some hs
        exact (reports_operand? (.splice rfl) rest).map _
      | none => exact ((reports_template x).congr fun p f => badMarkerAt_element hs).map _

end

end Value

/-! ## Forms with a bad template -/

section Evaluation

variable {ctx : Context} {e : FrameId} {m : Machine} {name : String} {t : Value} {fault : ArityError}

/-- A form with a bad template is recorded, and nothing else is done. -/
theorem evaluate_badTemplate (hname : name ∈ ["quasiquote", "quasiquoteexpand"])
    (hm : ∀ f, m.lookup e name = some f → f.expands = false) (ht : t.template = .error fault) :
    evaluate ctx e (.list [.symbol name, t]) m =
      Run.bind (Run.recordValue ctx .trace "apply " (.list [.symbol name, t]))
        (fun _ => Run.fail (.badTemplate fault)) m := by
  have bad : Step.template t = .error (.badTemplate fault) := by rw [Step.template, ht]
  have settled := evaluate_settled (c := ctx) (Machine.macroCall?_eq_none hm [t])
  simp only [List.mem_cons, List.not_mem_nil, or_false] at hname
  rcases hname with rfl | rfl
  · rw [settled, Step.expanded_special (by decide : SpecialForm.ofValue? (.symbol "quasiquote") = some .template),
      Run.bind_assoc]
    simp only [Step.special_template, bad]
    rfl
  · rw [settled, Step.expanded_special
      (by decide : SpecialForm.ofValue? (.symbol "quasiquoteexpand") = some .showTemplate), Run.bind_assoc]
    simp only [Step.special_showTemplate, bad]
    rfl

end Evaluation

/-! ## Rejection -/

/-- **Bad markers are rejected first.** Rewriting a template fails exactly if a marker in it does not have one operand,
and it reports the last one, for elements are taken from right to left. The template then is not evaluated, not even
in part: where the name of the form is no macro, the form fails, and nothing else is done but for a trace record, which
is made unless the print of the form has no end. -/
theorem bad_markers_rejected_first (t : Value) :
    ((∃ fault, t.template = .error fault) ↔ ∃ place fault, t.BadMarkerAt false place fault) ∧
      ∀ fault,
        (t.template = .error fault ↔ ∃ place, t.BadMarkerAt false place fault ∧
          ∀ other fault', t.BadMarkerAt false other fault' → other ≤ place) ∧
        (t.template = .error fault → ∀ name ∈ ["quasiquote", "quasiquoteexpand"],
          ∀ (ctx : Context) (e : FrameId) (m : Machine), (∀ f, m.lookup e name = some f → f.expands = false) →
            (∀ r, evaluate ctx e (.list [.symbol name, t]) m = some r →
              r.1 = .error (.badTemplate fault) ∧ ctx.Alike r.2 m) ∧
            ((ctx.records .trace = true → (m.text? .readable (.list [.symbol name, t])).isSome = true) →
              ∃ n, evaluate ctx e (.list [.symbol name, t]) m = some (.error (.badTemplate fault), n))) := by
  have reports := Value.reports_template t
  refine ⟨reports.exists_error_iff, fun fault => ⟨?_, fun ht name hname ctx e m hm => ?_⟩⟩
  · exact reports.eq_error_iff (fun _ _ _ => Value.BadMarkerAt.unique) fault
  have failing : evaluate ctx e (.list [.symbol name, t]) m = _ := evaluate_badTemplate hname hm ht
  refine ⟨fun r hr => ?_, fun prints => ?_⟩
  · rw [failing] at hr
    have made : Run.recordValue ctx .trace "apply " (.list [.symbol name, t]) m ≠ none := by
      intro none
      rw [Run.bind, none] at hr
      cases hr
    obtain ⟨n, hn, alike⟩ := Context.record_alike_of_ne_none made
    cases (Run.bind_ok hn).symm.trans hr
    exact ⟨rfl, alike⟩
  · have ends (hr : ctx.records .trace = true) :
        (Message.value "apply " (.list [.symbol name, t]) (m.contents .readable)).isSome = true := by
      rw [Message.value, Option.isSome_map, ← Option.isSome_map (f := String.ofList)]
      exact prints hr
    obtain ⟨n, hn, -⟩ := Context.record_alike_of_isSome ends
    exact ⟨n, failing.trans (Run.bind_ok hn)⟩

/-- The template `(~(def! y 1) [(splice-unquote)] {:k (unquote)})`, which has a bad marker after one with an effect. -/
def misspelt : Value :=
  .list [.list [.symbol "unquote", .list [.symbol "def!", .symbol "y", .int 1]],
    .vector [.list [.symbol "splice-unquote"]], .map [(.keyword "k", .list [.symbol "unquote"])]]

/-- The name is not bound, and the marker inside the map is none. -/
theorem bad_markers_rejected_first_misspelt :
    evaluate firstHeld 0 (.list [.symbol "quasiquote", misspelt]) listRoot =
        some (.error (.badTemplate ⟨"splice-unquote", .exactly 2, 1⟩), listRoot) ∧
      misspelt.BadMarkerAt false [1, 0] ⟨"splice-unquote", .exactly 2, 1⟩ := by
  have ht : misspelt.template = .error ⟨"splice-unquote", .exactly 2, 1⟩ := rfl
  obtain ⟨-, rejected⟩ := bad_markers_rejected_first misspelt
  obtain ⟨alike, fails⟩ := (rejected _).2 ht "quasiquote" (by decide) firstHeld 0 listRoot (fun f h => nomatch h)
  obtain ⟨n, hn⟩ := fails fun h => nomatch h
  have same : n = listRoot := (alike _ hn).2
  refine ⟨same ▸ hn, .inside (Value.not_isMarker.2 ⟨rfl, nofun⟩) rfl ?_⟩
  refine .inside (Value.not_isMarker.2 ⟨rfl, fun _ => rfl⟩) rfl ?_
  exact .here (.splice rfl) (by decide)

end MiniLisp

import MiniLisp.Proofs.Lifetime
import MiniLisp.Template

/-!
# Filling templates

What a template stands for, without a word on how it is rewritten: it is the same all over, but that the expressions
inside are replaced by their values, or by the elements of these.

* `Value.markers`: the expressions inside a template.
* `Value.fill`: the template with values for them.
* `Value.owned_fill`: a filled template owns whatever these values own.
-/

namespace MiniLisp

/-! ## What a template stands for -/

/-- An expression inside a template, and whether the elements of its value are spliced in. -/
structure Marker where
  splice : Bool
  expr : Value

namespace Value

/-- Whether the value counts as a sequence: a list, a vector or nil. -/
def isSequence : Value → Bool
  | nil | list _ | vector _ => true
  | _ => false

/-- The elements of a sequence. -/
def elements : Value → List Value
  | list xs | vector xs => xs
  | _ => []

mutual

/-- The expressions inside a template, from left to right. -/
def markers : Value → List Marker
  | list items =>
    match marked? "unquote" (list items) with
    | some [_, x] => [⟨false, x⟩]
    | some _ => []
    | none => itemMarkers items
  | vector items => itemMarkers items
  | _ => []

def itemMarkers : List Value → List Marker
  | [] => []
  | x :: xs =>
    match marked? "splice-unquote" x with
    | some [_, y] => ⟨true, y⟩ :: itemMarkers xs
    | some _ => itemMarkers xs
    | none => markers x ++ itemMarkers xs

end

mutual

/-- A template with the values of its expressions in their places. -/
def fill : Value → List Value → Value
  | list items, vs =>
    match marked? "unquote" (list items) with
    | some _ => vs.headD nil
    | none => list (fillItems items vs)
  | vector items, vs => vector (fillItems items vs)
  | v, _ => v

def fillItems : List Value → List Value → List Value
  | [], _ => []
  | x :: xs, vs =>
    match marked? "splice-unquote" x with
    | some _ => (vs.headD nil).elements ++ fillItems xs vs.tail
    | none => fill x (vs.take (markers x).length) :: fillItems xs (vs.drop (markers x).length)

end

/-! ## Markers -/

/-- A marker is a list with its symbol in front. -/
theorem marked?_eq_some {name : String} {x : Value} {items : List Value} (h : marked? name x = some items) :
    x = list items ∧ ∃ rest, items = symbol name :: rest := by
  unfold marked? at h
  split at h
  · next s rest =>
    split at h
    · next hs =>
      cases h
      exact ⟨rfl, rest, by rw [hs]⟩
    · cases h
  · cases h

theorem marked?_symbol (name : String) (rest : List Value) :
    marked? name (list (symbol name :: rest)) = some (symbol name :: rest) := by
  simp [marked?]

/-- A marker has exactly one operand. -/
theorem operand?_eq_ok {name : String} {items : List Value} {v : Value} (h : operand? name items = .ok v) :
    ∃ head, items = [head, v] := by
  unfold operand? at h
  split at h
  · next head w =>
    cases h
    exact ⟨head, rfl⟩
  · cases h

/-- A template is an unquoted expression, some other list, a vector, a symbol or a map, or a leaf. -/
theorem template_list {items : List Value} {form : Value} (h : (list items).template = .ok form) :
    (items = [symbol "unquote", form]) ∨
      (marked? "unquote" (list items) = none ∧ templateItems items = .ok form) := by
  unfold template at h
  cases hm : marked? "unquote" (list items) with
  | some marker =>
    rw [hm] at h
    obtain ⟨head, rfl⟩ := operand?_eq_ok h
    obtain ⟨hx, rest, hrest⟩ := marked?_eq_some hm
    cases hx
    cases hrest
    exact .inl rfl
  | none =>
    rw [hm] at h
    exact .inr ⟨rfl, h⟩

/-- The form for the elements of a sequence puts the first one, or the elements of the first one, before the others. -/
theorem templateItems_cons {x : Value} {xs : List Value} {form : Value} (h : templateItems (x :: xs) = .ok form) :
    ∃ rest, templateItems xs = .ok rest ∧
      ((∃ y, x = list [symbol "splice-unquote", y] ∧ form = list [symbol "concat", y, rest]) ∨
        marked? "splice-unquote" x = none ∧ ∃ first, x.template = .ok first ∧
          form = list [symbol "cons", first, rest]) := by
  unfold templateItems at h
  cases hxs : templateItems xs with
  | error fault =>
    rw [hxs] at h
    cases h
  | ok rest =>
    rw [hxs] at h
    refine ⟨rest, rfl, ?_⟩
    cases hm : marked? "splice-unquote" x with
    | some marker =>
      simp only [hm] at h
      cases ho : operand? "splice-unquote" marker with
      | error fault =>
        rw [ho] at h
        cases h
      | ok y =>
        rw [ho] at h
        cases h
        obtain ⟨head, rfl⟩ := operand?_eq_ok ho
        obtain ⟨rfl, tail, hrest⟩ := marked?_eq_some hm
        cases hrest
        exact .inl ⟨y, rfl, rfl⟩
    | none =>
      simp only [hm] at h
      cases hx : x.template with
      | error fault =>
        rw [hx] at h
        cases h
      | ok first =>
        rw [hx] at h
        cases h
        exact .inr ⟨rfl, first, rfl, rfl⟩

/-- A vector is filled as a list and made a vector at the end. -/
theorem template_vector {items : List Value} {form : Value} (h : (vector items).template = .ok form) :
    ∃ rest, templateItems items = .ok rest ∧ form = list [symbol "vec", rest] := by
  unfold template at h
  cases hi : templateItems items with
  | error fault =>
    rw [hi] at h
    cases h
  | ok rest =>
    rw [hi] at h
    cases h
    exact ⟨rest, rfl, rfl⟩

theorem itemMarkers_splice (y : Value) (xs : List Value) :
    itemMarkers (list [symbol "splice-unquote", y] :: xs) = ⟨true, y⟩ :: itemMarkers xs := by
  rw [itemMarkers, marked?_symbol]

/-- An item that is no splice contributes the markers inside it. -/
theorem itemMarkers_item {x : Value} (h : marked? "splice-unquote" x = none) (xs : List Value) :
    itemMarkers (x :: xs) = x.markers ++ itemMarkers xs := by
  rw [itemMarkers, h]

/-- A splice takes one of the values and puts its elements in place. -/
theorem fillItems_splice (y v : Value) (xs vs : List Value) :
    fillItems (list [symbol "splice-unquote", y] :: xs) (v :: vs) = v.elements ++ fillItems xs vs := by
  rw [fillItems, marked?_symbol]
  rfl

/-- An item takes as many of the values as it has markers. -/
theorem fillItems_item {x : Value} (h : marked? "splice-unquote" x = none) (xs : List Value) {vs us : List Value}
    (hv : vs.length = x.markers.length) : fillItems (x :: xs) (vs ++ us) = x.fill vs :: fillItems xs us := by
  rw [fillItems, h]
  simp only [← hv, List.take_left, List.drop_left]

theorem markers_list {items : List Value} (h : marked? "unquote" (list items) = none) :
    (list items).markers = itemMarkers items := by
  rw [markers, h]

theorem fill_list {items : List Value} (h : marked? "unquote" (list items) = none) (vs : List Value) :
    (list items).fill vs = list (fillItems items vs) := by
  rw [fill, h]

mutual

/-- A template without expressions inside is filled as it stands. -/
theorem fill_of_markers_nil : ∀ {t form : Value}, t.template = .ok form → t.markers = [] → ∀ vs, t.fill vs = t
  | list items, form, ht, hm, vs => by
    rcases template_list ht with rfl | ⟨hn, hi⟩
    · rw [markers, marked?_symbol] at hm
      cases hm
    · rw [markers_list hn] at hm
      rw [fill_list hn, fillItems_of_markers_nil hi hm]
  | vector items, form, ht, hm, vs => by
    obtain ⟨rest, hi, -⟩ := template_vector ht
    rw [markers] at hm
    rw [fill, fillItems_of_markers_nil hi hm]
  | nil, _, _, _, _ | bool _, _, _, _, _ | int _, _, _, _, _ | float _, _, _, _, _ | text _, _, _, _, _
  | symbol _, _, _, _, _ | keyword _, _, _, _, _ | map _, _, _, _, _ | builtin _, _, _, _, _ | rooted _ _, _, _, _, _
  | closure _ _ _ _ _, _, _, _, _ | atom _, _, _, _, _ => rfl

/-- Items without a marker are filled with themselves. -/
theorem fillItems_of_markers_nil : ∀ {xs : List Value} {form : Value}, templateItems xs = .ok form →
    itemMarkers xs = [] → ∀ vs, fillItems xs vs = xs
  | [], _, _, _, _ => rfl
  | x :: xs, form, ht, hm, vs => by
    obtain ⟨rest, hxs, ⟨y, rfl, -⟩ | ⟨hn, first, hx, -⟩⟩ := templateItems_cons ht
    · rw [itemMarkers_splice] at hm
      cases hm
    · rw [itemMarkers_item hn] at hm
      obtain ⟨hmx, hmxs⟩ := List.append_eq_nil_iff.1 hm
      rw [fillItems, hn]
      simp only [fill_of_markers_nil hx hmx, fillItems_of_markers_nil hxs hmxs]

end

/-! ## What a filled template owns -/

/-- Every value that is spliced in is a sequence. -/
def Spliceable (ms : List Marker) (vs : List Value) : Prop :=
  ∀ p ∈ ms.zip vs, p.1.splice = true → p.2.isSequence = true

/-- Values that fit the markers of two parts fit those of each. -/
theorem Spliceable.of_append {ms ns : List Marker} {us vs : List Value} (h : Spliceable (ms ++ ns) (us ++ vs))
    (hl : us.length = ms.length) : Spliceable ms us ∧ Spliceable ns vs := by
  unfold Spliceable at h
  rw [List.zip_append hl.symm] at h
  exact ⟨fun p hp => h p (List.mem_append_left _ hp), fun p hp => h p (List.mem_append_right _ hp)⟩

instance (ms : List Marker) (vs : List Value) : Decidable (Spliceable ms vs) :=
  inferInstanceAs (Decidable (∀ p ∈ ms.zip vs, p.1.splice = true → p.2.isSequence = true))

theorem Spliceable.of_cons {p : Marker} {ms : List Marker} {v : Value} {vs : List Value}
    (h : Spliceable (p :: ms) (v :: vs)) : (p.splice = true → v.isSequence = true) ∧ Spliceable ms vs :=
  ⟨h (p, v) List.mem_cons_self, fun q hq => h q (List.mem_cons_of_mem _ hq)⟩

theorem split_of_length {ms ns : List Marker} {vs : List Value} (h : vs.length = (ms ++ ns).length) :
    ∃ us ws, vs = us ++ ws ∧ us.length = ms.length ∧ ws.length = ns.length := by
  rw [List.length_append] at h
  refine ⟨vs.take ms.length, vs.drop ms.length, (List.take_append_drop _ vs).symm, ?_, ?_⟩
  · rw [List.length_take]
    omega
  · rw [List.length_drop]
    omega

/-- A sequence owns what its elements own. -/
theorem owned_eq_elements {v : Value} (h : v.isSequence = true) : v.owned = ownedItems v.elements := by
  cases v <;> first | rfl | cases h

theorem ownedItems_append (xs ys : List Value) :
    (ownedItems xs).LE (ownedItems (xs ++ ys)) ∧ (ownedItems ys).LE (ownedItems (xs ++ ys)) := by
  induction xs with
  | nil => exact ⟨Owned.none_le _, .refl _⟩
  | cons x xs ih =>
    refine ⟨Owned.union_le (Owned.le_union_left _ _) (ih.1.trans (Owned.le_union_right _ _)), ?_⟩
    exact ih.2.trans (Owned.le_union_right _ _)

mutual

/-- A filled template owns whatever the values in it own. -/
theorem owned_fill : ∀ {t form : Value} {vs : List Value}, t.template = .ok form → vs.length = t.markers.length →
    Spliceable t.markers vs → ∀ v ∈ vs, v.owned.LE (t.fill vs).owned
  | list items, form, vs, ht, hl, hs, v, hv => by
    rcases template_list ht with rfl | ⟨hn, hi⟩
    · rw [markers, marked?_symbol] at hl
      obtain ⟨w, rfl⟩ := List.length_eq_one_iff.1 hl
      rw [List.mem_singleton.1 hv, fill, marked?_symbol]
      exact .refl _
    · rw [markers_list hn] at hl hs
      rw [fill_list hn]
      exact owned_fillItems hi hl hs v hv
  | vector items, form, vs, ht, hl, hs, v, hv => by
    obtain ⟨rest, hi, -⟩ := template_vector ht
    rw [markers] at hl hs
    rw [fill]
    exact owned_fillItems hi hl hs v hv
  | nil, _, [], _, _, _, _, hv | bool _, _, [], _, _, _, _, hv | int _, _, [], _, _, _, _, hv
  | float _, _, [], _, _, _, _, hv | text _, _, [], _, _, _, _, hv | symbol _, _, [], _, _, _, _, hv
  | keyword _, _, [], _, _, _, _, hv | map _, _, [], _, _, _, _, hv | builtin _, _, [], _, _, _, _, hv
  | rooted _ _, _, [], _, _, _, _, hv | closure _ _ _ _ _, _, [], _, _, _, _, hv
  | atom _, _, [], _, _, _, _, hv => nomatch hv

/-- A filled template owns what its values own, since each of them ends up inside it. -/
theorem owned_fillItems : ∀ {xs : List Value} {form : Value} {vs : List Value}, templateItems xs = .ok form →
    vs.length = (itemMarkers xs).length → Spliceable (itemMarkers xs) vs →
      ∀ v ∈ vs, v.owned.LE (ownedItems (fillItems xs vs))
  | [], _, [], _, _, _, _, hv => nomatch hv
  | x :: xs, form, vs, ht, hl, hs, v, hv => by
    obtain ⟨rest, hxs, ⟨y, rfl, -⟩ | ⟨hn, first, hx, -⟩⟩ := templateItems_cons ht
    · rw [itemMarkers_splice] at hl hs
      match vs, hl with
      | w :: ws, hl =>
        obtain ⟨hw, hws⟩ := Spliceable.of_cons hs
        rw [fillItems_splice]
        obtain ⟨left, right⟩ := ownedItems_append w.elements (fillItems xs ws)
        rcases List.mem_cons.1 hv with rfl | hv
        · rw [owned_eq_elements (hw rfl)]
          exact left
        · exact (owned_fillItems hxs (Nat.succ.inj hl) hws v hv).trans right
    · rw [itemMarkers_item hn] at hl hs
      obtain ⟨us, ws, rfl, hus, hws⟩ := split_of_length hl
      obtain ⟨su, sw⟩ := Spliceable.of_append hs hus
      rw [fillItems_item hn xs hus]
      rcases List.mem_append.1 hv with hv | hv
      · exact (owned_fill hx hus su v hv).trans (Owned.le_union_left _ _)
      · exact (owned_fillItems hxs hws sw v hv).trans (Owned.le_union_right _ _)

end

end Value

end MiniLisp

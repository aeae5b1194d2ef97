import Mathlib
import MiniLisp.Eval.Call
import MiniLisp.Proofs.Growth
import MiniLisp.Text.Blank

/-!
# Parameters

What names spell a parameter list, how a parameter list is shown, and what it binds.

* `Params.ofNames?_eq_ok`, `Params.exists_ofNames?`: the parameter list that names spell, and whether there is one.
* `Params.words_text`: the text of a parameter list, split at blanks, gives the names back.
* `Params.Bound`: what the arguments of a call are bound to (`Params.bound_bindings`).
* `Call.Entered`: what the frame of a call is (`Call.enter_iff`).
-/

namespace MiniLisp

/-! ## Words -/

namespace Text

/-- The words of a text, which stand between blanks. -/
def words (s : String) : List String :=
  ((s.toList.splitOnP isBlank).filter fun w => !w.isEmpty).map String.ofList

/-- A word is not empty and has no blank. -/
def IsWord (s : String) : Prop := s ≠ "" ∧ ∀ c ∈ s.toList, isBlank c = false

theorem words_of_isWord {s : String} (h : IsWord s) : words s = [s] := by
  have single : s.toList.splitOnP isBlank = [s.toList] := List.splitOnP_eq_singleton h.2
  have nonempty : s.toList ≠ [] := fun he => h.1 (String.toList_inj.1 he)
  simp [words, single, nonempty]

/-- A word and a blank stand before other words. -/
theorem words_append {s : String} (h : IsWord s) (t : String) : words (s ++ " " ++ t) = s :: words t := by
  have first : (s.toList ++ ' ' :: t.toList).splitOnP isBlank = s.toList :: t.toList.splitOnP isBlank :=
    List.splitOnP_append_cons_of_forall_mem h.2 ' ' (by decide) t.toList
  have nonempty : s.toList ≠ [] := fun he => h.1 (String.toList_inj.1 he)
  have chars : (s ++ " " ++ t).toList = s.toList ++ ' ' :: t.toList := by simp
  simp [words, chars, first, nonempty]

/-- Names put together with spaces fall apart into the names. -/
theorem words_intercalate {names : List String} (h : ∀ name ∈ names, IsWord name) :
    words (" ".intercalate names) = names := by
  induction names with
  | nil => rfl
  | cons name names ih =>
    cases names with
    | nil =>
      rw [String.intercalate_singleton]
      exact words_of_isWord (h name List.mem_cons_self)
    | cons other names =>
      rw [String.intercalate_cons_cons, words_append (h name List.mem_cons_self),
        ih fun n hn => h n (List.mem_cons_of_mem _ hn)]

end Text

/-! ## Names that spell a parameter list -/

namespace Params

/-- No parameter has the name that announces a rest parameter. -/
def Proper (p : Params) : Prop := restMarker ∉ p.positional ∧ p.rest ≠ some restMarker

/-- How many arguments are accepted. -/
theorem arity_accepts {p : Params} {n : Nat} :
    p.arity.accepts n = true ↔ p.positional.length ≤ n ∧ (p.rest = none → n = p.positional.length) := by
  unfold arity
  cases p.rest with
  | none =>
    rw [Arity.accepts_exactly]
    exact ⟨fun h => ⟨h.ge, fun _ => h⟩, fun h => h.2 rfl⟩
  | some rest => simp [Arity.accepts_atLeast]

/-- The marker stands once, before the last name, when it stands nowhere else. -/
theorem count_restMarker {before : List String} {last : String} :
    (before ++ [restMarker, last]).count restMarker = 1 ↔ restMarker ∉ before ∧ last ≠ restMarker := by
  rw [List.count_append, List.count_cons_self, List.count_singleton, ← List.count_eq_zero]
  by_cases h : last = restMarker <;> simp [h]

/-- The parameter list that names spell is written with these names, and no parameter has the name of the marker. -/
theorem ofNames?_eq_ok {names : List String} {p : Params} :
    ofNames? names = .ok p ↔ p.names = names ∧ p.Proper := by
  obtain ⟨positional, rest⟩ := p
  constructor
  · intro h
    unfold ofNames? at h
    split at h
    · next none =>
      cases h
      exact ⟨rfl, List.count_eq_zero.1 none, fun h => nomatch h⟩
    · next once =>
      split at h
      · next last marker before reversed =>
        split at h
        · next hm =>
          cases h
          have spelled : names = before.reverse ++ [restMarker, last] := by
            rw [← List.reverse_reverse names, reversed, hm]
            simp
          obtain ⟨hp, hr⟩ := count_restMarker.1 (spelled ▸ once)
          exact ⟨spelled.symm, hp, fun same => hr (Option.some.inj same)⟩
        · cases h
      · cases h
    · cases h
  · rintro ⟨rfl, hp, hr⟩
    cases rest with
    | none =>
      have none : List.count restMarker positional = 0 := List.count_eq_zero.2 hp
      simp [ofNames?, names, none]
    | some last =>
      have once := count_restMarker.2 ⟨hp, fun same => hr (congrArg some same)⟩
      simp [ofNames?, names, once]

/-- Names spell a parameter list if the marker is none of them, or stands among them once, as the last but one. -/
theorem exists_ofNames? {names : List String} :
    (∃ p, ofNames? names = .ok p) ↔ restMarker ∉ names ∨
      names.count restMarker = 1 ∧ ∃ before last, names = before ++ [restMarker, last] := by
  simp only [ofNames?_eq_ok]
  constructor
  · rintro ⟨⟨positional, rest⟩, rfl, hp, hr⟩
    cases rest with
    | none => exact .inl hp
    | some last => exact .inr ⟨count_restMarker.2 ⟨hp, fun same => hr (congrArg some same)⟩, positional, last, rfl⟩
  · rintro (h | ⟨once, before, last, rfl⟩)
    · exact ⟨⟨names, none⟩, rfl, h, fun h => nomatch h⟩
    · obtain ⟨hp, hr⟩ := count_restMarker.1 once
      exact ⟨⟨before, some last⟩, rfl, hp, fun same => hr (Option.some.inj same)⟩

theorem words_text {p : Params} (h : ∀ name ∈ p.names, Text.IsWord name) : Text.words p.text = p.names :=
  Text.words_intercalate h

end Params

/-! ## What is bound -/

namespace Bindings

theorem find?_append (name : String) (as bs : Bindings) :
    find? name (as ++ bs) = (find? name as).or (find? name bs) := by
  induction as with
  | nil => rfl
  | cons a as ih =>
    simp only [List.cons_append, find?]
    split
    · rfl
    · exact ih

/-- Of bindings put in one after another the last one for a name counts. -/
theorem find?_insertAll (name : String) (bs : Bindings) (more : List (String × Value)) :
    (bs.insertAll more).find? name = (find? name more.reverse).or (bs.find? name) := by
  induction more generalizing bs with
  | nil => rfl
  | cons b more ih =>
    rw [List.reverse_cons, find?_append, Option.or_assoc]
    refine (ih (bs.insert b.1 b.2)).trans (congrArg _ ?_)
    rw [find?_insert, find?, find?]
    split <;> rfl

theorem mem_of_find? {name : String} {v : Value} {bs : Bindings} (h : bs.find? name = some v) : (name, v) ∈ bs := by
  induction bs with
  | nil => cases h
  | cons b bs ih =>
    obtain ⟨n, w⟩ := b
    unfold find? at h
    split at h
    · next hn =>
      cases h
      rw [hn]
      exact List.mem_cons_self
    · exact List.mem_cons_of_mem _ (ih h)

theorem mem_insert {name : String} {v : Value} {b : String × Value} {bs : Bindings} (h : b ∈ bs.insert name v) :
    b = (name, v) ∨ b ∈ bs := by
  induction bs with
  | nil => simpa [insert] using h
  | cons c bs ih =>
    rw [insert] at h
    split at h
    · exact (List.mem_cons.1 h).imp id (List.mem_cons_of_mem _)
    · rcases List.mem_cons.1 h with rfl | h
      · exact .inr List.mem_cons_self
      · exact (ih h).imp id (List.mem_cons_of_mem _)

/-- Whatever bindings there are in the end were there or were put in. -/
theorem mem_insertAll {b : String × Value} {more bs : List (String × Value)}
    (h : b ∈ Bindings.insertAll bs more) : b ∈ more ∨ b ∈ bs := by
  induction more generalizing bs with
  | nil => exact .inr h
  | cons c more ih =>
    rcases ih h with h | h
    · exact .inl (List.mem_cons_of_mem _ h)
    · rcases mem_insert h with rfl | h
      · exact .inl List.mem_cons_self
      · exact .inr h

theorem find?_eq_none {name : String} {bs : Bindings} (h : ∀ b ∈ bs, b.1 ≠ name) : bs.find? name = none := by
  induction bs with
  | nil => rfl
  | cons b bs ih => rw [find?, if_neg (h b List.mem_cons_self), ih fun c hc => h c (List.mem_cons_of_mem _ hc)]

/-- A name that is no parameter is not bound by the arguments. -/
theorem find?_zip_of_notMem {name : String} {names : List String} (h : name ∉ names) (args : List Value) :
    find? name (names.zip args).reverse = none := by
  refine find?_eq_none fun b hb same => h ?_
  rw [← same]
  exact (List.of_mem_zip (List.mem_reverse.1 hb)).1

end Bindings

namespace Params

/-- What a call binds: the name of the rest to the list of the arguments that are left, and every other name of a
parameter to the argument at its last place. -/
structure Bound (p : Params) (args : List Value) (bs : Bindings) : Prop where
  rest {name : String} (h : p.rest = some name) : bs.find? name = some (.list (args.drop p.positional.length))
  positional {name : String} {before after : List String} (h : p.positional = before ++ name :: after)
    (ha : name ∉ after) (hr : p.rest ≠ some name) :
    ∃ v, args[before.length]? = some v ∧ bs.find? name = some v
  other {name : String} (h : name ∉ p.positional) (hr : p.rest ≠ some name) : bs.find? name = none

/-- The rest parameter takes what the positional ones leave over; each of those has its own argument. -/
theorem find?_bindings (p : Params) (args : List Value) (name : String) :
    (p.bindings args).find? name =
      if p.rest = some name then some (.list (args.drop p.positional.length))
      else Bindings.find? name (p.positional.zip args).reverse := by
  unfold bindings
  cases p.rest with
  | none => simp [Bindings.find?_insertAll, Bindings.find?]
  | some rest => simp [Bindings.find?_insert, Bindings.find?_insertAll, Bindings.find?]

/-- The bindings of a call are as the parameters ask, when there are arguments enough. -/
theorem bound_bindings {p : Params} {args : List Value} (hn : p.positional.length ≤ args.length) :
    p.Bound args (p.bindings args) where
  rest h := by rw [find?_bindings, if_pos h]
  positional {name before after} h ha hr := by
    have short : before.length < args.length := by
      rw [h, List.length_append, List.length_cons] at hn
      omega
    refine ⟨args[before.length], List.getElem?_eq_getElem short, ?_⟩
    have split : args = args.take before.length ++ args[before.length] :: args.drop (before.length + 1) := by
      rw [← List.drop_eq_getElem_cons short, List.take_append_drop]
    have zipped : p.positional.zip args = before.zip (args.take before.length) ++
        (name, args[before.length]) :: after.zip (args.drop (before.length + 1)) := by
      conv_lhs => rw [h, split]
      exact List.zip_append (by rw [List.length_take, Nat.min_eq_left (Nat.le_of_lt short)])
    rw [find?_bindings, if_neg hr, zipped, List.reverse_append, List.reverse_cons, Bindings.find?_append,
      Bindings.find?_append, Bindings.find?_zip_of_notMem ha]
    simp [Bindings.find?]
  other h hr := by rw [find?_bindings, if_neg hr, Bindings.find?_zip_of_notMem h]

end Params

/-! ## The frame of a call -/

/-- Binding parameters succeeds just when the count of arguments is accepted, and adds a frame below the captured
one. -/
theorem Call.enter_iff {p : Params} {captured e : FrameId} {args : List Value} {m m' : Machine} :
    enter p captured args m = some (.ok e, m') ↔
      p.arity.accepts args.length = true ∧ e = m.frames.size ∧
        m' = (m.addFrame (p.bindings args) (some captured)).2 := by
  cases hn : p.arity.accepts args.length with
  | true =>
    rw [enter_eq hn]
    simp [eq_comm]
  | false =>
    rw [enter_of_badCount hn]
    simp

end MiniLisp

import Mathlib
import MiniLisp.Machine.Basic
import MiniLisp.Proofs.Literals
import MiniLisp.Proofs.Parsing

/-!
# Readable data print and read back

Data are readable (`Value.Readable`) if they hold no value with an identity and no float, and if their names can be
told from everything else. The readable text of such data, with the entries of their maps in any order
(`Value.Reorders`), reads back as the same data, and what is read is readable unless a float is in it
(`readable_text_reads_back`).

Floats are left to those who know what their texts stand for: whatever that is, it stands in their places when the
text of the data is read (`Value.spells_mapFloats`).

* `Value.Legible`: data as the reader puts them together, with floats.
* `Value.mapFloats`: data with something else in the places of their floats.
* `Spells`: a text that is scanned, whatever may follow it, to tokens that spell some forms.
-/

namespace MiniLisp

/-! ## Readable data -/

namespace Key

/-- A keyword can be told by its name if that is one run behind the colon. -/
def Readable : Key → Prop
  | keyword name => ∀ c ∈ name.toList, isPlain c = true
  | text _ => True

end Key

namespace Value

/-- Data that can be told from their readable text. -/
inductive Readable : Value → Prop
  | nil : Readable .nil
  | bool (b : Bool) : Readable (.bool b)
  | int (n : Int64) : Readable (.int n)
  | text (s : String) : Readable (.text s)
  | symbol {s : String} (h : IsName s) : Readable (.symbol s)
  | keyword {name : String} (h : ∀ c ∈ name.toList, isPlain c = true) : Readable (.keyword name)
  | list {xs : List Value} (h : ∀ x ∈ xs, Readable x) : Readable (.list xs)
  | vector {xs : List Value} (h : ∀ x ∈ xs, Readable x) : Readable (.vector xs)
  | map {es : Entries} (ordered : es.Ordered) (keys : ∀ e ∈ es, e.1.Readable) (values : ∀ e ∈ es, Readable e.2) :
      Readable (.map es)

/-- Data that can be told from their readable text as far as they are no floats. -/
inductive Legible : Value → Prop
  | nil : Legible .nil
  | bool (b : Bool) : Legible (.bool b)
  | int (n : Int64) : Legible (.int n)
  | float (x : Float) : Legible (.float x)
  | text (s : String) : Legible (.text s)
  | symbol {s : String} (h : IsName s) : Legible (.symbol s)
  | keyword {name : String} (h : ∀ c ∈ name.toList, isPlain c = true) : Legible (.keyword name)
  | list {xs : List Value} (h : ∀ x ∈ xs, Legible x) : Legible (.list xs)
  | vector {xs : List Value} (h : ∀ x ∈ xs, Legible x) : Legible (.vector xs)
  | map {es : Entries} (ordered : es.Ordered) (keys : ∀ e ∈ es, e.1.Readable) (values : ∀ e ∈ es, Legible e.2) :
      Legible (.map es)

/-- A certain float somewhere inside. -/
inductive FloatIn (x : Float) : Value → Prop
  | float : FloatIn x (.float x)
  | list {xs : List Value} {v : Value} (hv : v ∈ xs) (h : FloatIn x v) : FloatIn x (.list xs)
  | vector {xs : List Value} {v : Value} (hv : v ∈ xs) (h : FloatIn x v) : FloatIn x (.vector xs)
  | map {es : Entries} {e : Key × Value} (he : e ∈ es) (h : FloatIn x e.2) : FloatIn x (.map es)

/-- A float somewhere inside. -/
inductive HasFloat : Value → Prop
  | float (x : Float) : HasFloat (.float x)
  | list {xs : List Value} {x : Value} (hx : x ∈ xs) (h : HasFloat x) : HasFloat (.list xs)
  | vector {xs : List Value} {x : Value} (hx : x ∈ xs) (h : HasFloat x) : HasFloat (.vector xs)
  | map {es : Entries} {e : Key × Value} (he : e ∈ es) (h : HasFloat e.2) : HasFloat (.map es)

mutual

/-- The value with others in the places of its floats. -/
def mapFloats (f : Float → Value) : Value → Value
  | .float x => f x
  | .list xs => .list (mapFloatsItems f xs)
  | .vector xs => .vector (mapFloatsItems f xs)
  | .map es => .map (mapFloatsEntries f es)
  | v => v

def mapFloatsItems (f : Float → Value) : List Value → List Value
  | [] => []
  | x :: xs => mapFloats f x :: mapFloatsItems f xs

def mapFloatsEntries (f : Float → Value) : List (Key × Value) → List (Key × Value)
  | [] => []
  | (k, x) :: es => (k, mapFloats f x) :: mapFloatsEntries f es

end

/-- Floats are replaced item by item. -/
theorem mapFloatsItems_eq (f : Float → Value) (xs : List Value) : mapFloatsItems f xs = xs.map (mapFloats f) := by
  induction xs with
  | nil => rfl
  | cons x xs ih => rw [mapFloatsItems, ih, List.map_cons]

theorem mapFloatsEntries_eq (f : Float → Value) :
    ∀ es : Entries, mapFloatsEntries f es = es.map fun e => (e.1, mapFloats f e.2)
  | [] => rfl
  | (k, x) :: es => by rw [mapFloatsEntries, mapFloatsEntries_eq f es, List.map_cons]

theorem floatIn_list {x : Float} {xs : List Value} : FloatIn x (.list xs) ↔ ∃ v ∈ xs, FloatIn x v :=
  ⟨fun h => by cases h with | list hv h => exact ⟨_, hv, h⟩, fun ⟨_, hv, h⟩ => .list hv h⟩

theorem floatIn_vector {x : Float} {xs : List Value} : FloatIn x (.vector xs) ↔ ∃ v ∈ xs, FloatIn x v :=
  ⟨fun h => by cases h with | vector hv h => exact ⟨_, hv, h⟩, fun ⟨_, hv, h⟩ => .vector hv h⟩

theorem floatIn_map {x : Float} {es : Entries} : FloatIn x (.map es) ↔ ∃ e ∈ es, FloatIn x e.2 :=
  ⟨fun h => by cases h with | map he h => exact ⟨_, he, h⟩, fun ⟨_, he, h⟩ => .map he h⟩

/-- What stays the same throughout does so if all floats inside do. -/
theorem map_eq_self_iff {α : Type} {g : α → α} {P : Float → α → Prop} {Q : Float → Prop} {xs : List α}
    (h : ∀ a ∈ xs, g a = a ↔ ∀ x, P x a → Q x) : xs.map g = xs ↔ ∀ x, (∃ a ∈ xs, P x a) → Q x := by
  have same : xs.map g = xs.map id ↔ ∀ a ∈ xs, g a = id a := List.map_inj_left
  rw [List.map_id] at same
  rw [same]
  constructor
  · rintro all x ⟨a, ha, hx⟩
    exact (h a ha).1 (all a ha) x hx
  · exact fun all a ha => (h a ha).2 fun x hx => all x ⟨a, ha, hx⟩

/-- Data stay the same if their floats do. -/
theorem Legible.mapFloats_eq_self_iff {v : Value} (hv : v.Legible) (f : Float → Value) :
    v.mapFloats f = v ↔ ∀ x, v.FloatIn x → f x = .float x := by
  induction hv with
  | nil | bool | int | text | symbol | keyword => exact iff_of_true rfl nofun
  | float x => exact ⟨fun h y hy => by cases hy; exact h, fun h => h x .float⟩
  | list _ ih =>
    simp only [mapFloats, mapFloatsItems_eq, Value.list.injEq, floatIn_list]
    exact map_eq_self_iff ih
  | vector _ ih =>
    simp only [mapFloats, mapFloatsItems_eq, Value.vector.injEq, floatIn_vector]
    exact map_eq_self_iff ih
  | map _ _ _ ih =>
    simp only [mapFloats, mapFloatsEntries_eq, Value.map.injEq, floatIn_map]
    exact map_eq_self_iff fun e he => by simp only [Prod.ext_iff, true_and, ih e he]

mutual

/-- The first value is the second one with the entries of its maps in some order, at every depth. -/
inductive Reorders : Value → Value → Prop
  | refl (v : Value) : Reorders v v
  | list {ys xs : List Value} (h : ReordersItems ys xs) : Reorders (.list ys) (.list xs)
  | vector {ys xs : List Value} (h : ReordersItems ys xs) : Reorders (.vector ys) (.vector xs)
  | map {gs fs es : Entries} (h : ReordersEntries gs fs) (perm : fs.Perm es) : Reorders (.map gs) (.map es)

inductive ReordersItems : List Value → List Value → Prop
  | nil : ReordersItems [] []
  | cons {y x : Value} {ys xs : List Value} (h : Reorders y x) (hs : ReordersItems ys xs) :
      ReordersItems (y :: ys) (x :: xs)

inductive ReordersEntries : Entries → Entries → Prop
  | nil : ReordersEntries [] []
  | cons {k : Key} {y x : Value} {gs fs : Entries} (h : Reorders y x) (hs : ReordersEntries gs fs) :
      ReordersEntries ((k, y) :: gs) ((k, x) :: fs)

end

/-- Leaving everything in place is a reordering. -/
theorem reordersItems_refl (xs : List Value) : ReordersItems xs xs := by
  induction xs with
  | nil => exact .nil
  | cons x xs ih => exact .cons (.refl x) ih

theorem reordersEntries_refl : ∀ es : Entries, ReordersEntries es es
  | [] => .nil
  | (_, x) :: es => .cons (.refl x) (reordersEntries_refl es)

/-- A reordered list has its items reordered each for itself, and in place. -/
theorem reorders_list {w : Value} {xs : List Value} (h : Reorders w (.list xs)) :
    ∃ ys, w = .list ys ∧ ReordersItems ys xs := by
  cases h with
  | refl => exact ⟨xs, rfl, reordersItems_refl xs⟩
  | list h => exact ⟨_, rfl, h⟩

theorem reorders_vector {w : Value} {xs : List Value} (h : Reorders w (.vector xs)) :
    ∃ ys, w = .vector ys ∧ ReordersItems ys xs := by
  cases h with
  | refl => exact ⟨xs, rfl, reordersItems_refl xs⟩
  | vector h => exact ⟨_, rfl, h⟩

/-- A reordered map has its values reordered and its entries permuted. -/
theorem reorders_map {w : Value} {es : Entries} (h : Reorders w (.map es)) :
    ∃ gs fs, w = .map gs ∧ ReordersEntries gs fs ∧ fs.Perm es := by
  cases h with
  | refl => exact ⟨es, es, rfl, reordersEntries_refl es, List.Perm.refl es⟩
  | map h perm => exact ⟨_, _, rfl, h, perm⟩

end Value

/-! ## Texts that spell forms -/

/-- A text that is scanned to tokens which spell forms, before anything that goes on with no plain run. -/
def Spells (t : List Char) (vs : List Value) : Prop :=
  ∃ ts, Forms ts vs ∧ ∀ rest, Stops rest → Token.scan? (t ++ rest) = (Token.scan? rest).map (ts ++ ·)

theorem spells_nil : Spells [] [] := ⟨[], .nil, fun rest _ => by simp⟩

/-- A plain token spells its value. -/
theorem spells_run {chars : List Char} {v : Value} (h : IsRun chars) (hv : Value.ofPlain? chars = .ok v) :
    Spells chars [v] :=
  ⟨[.plain chars], forms_single (.plain hv), fun _ hr => Token.scan?_run h hr⟩

theorem spells_literal (s : String) : Spells (Text.Quoted.literal s.toList) [.text s] := by
  refine ⟨[.string (Text.Quoted.encode s.toList)], forms_single ?_, fun rest _ => Token.scan?_literal s.toList rest⟩
  simpa using Form.string (Text.Quoted.decode_encode s.toList)

/-- A key spells its value: a text by its literal, a keyword by its name. -/
theorem spells_key {k : Key} (h : k.Readable) : Spells (Mode.readable.key k) [k.toValue] := by
  cases k with
  | keyword name => exact spells_run (isRun_keyword h) (Value.ofPlain?_keyword name)
  | text s => exact spells_literal s

/-- Two texts with a space between them. -/
theorem spells_append {t u : List Char} {vs ws : List Value} (h : Spells t vs) (h' : Spells u ws) :
    Spells (t ++ ' ' :: u) (vs ++ ws) := by
  obtain ⟨ts, hts, hscan⟩ := h
  obtain ⟨us, hus, hscan'⟩ := h'
  refine ⟨ts ++ us, forms_append hts hus, fun rest hr => ?_⟩
  have hspace : Stops (' ' :: (u ++ rest)) := stops_cons (by decide) _
  rw [List.append_assoc, List.cons_append, hscan _ hspace, Token.scan?_separator (by decide), hscan' rest hr,
    Option.map_map]
  congr 1
  funext us'
  simp

/-- Texts with spaces between them spell what they spell, one after the other. -/
theorem spells_spaced {ts : List (List Char)} {vss : List (List Value)} (hlen : ts.length = vss.length)
    (h : ∀ p ∈ ts.zip vss, Spells p.1 p.2) : Spells (spaced ts) vss.flatten := by
  induction ts generalizing vss with
  | nil =>
    cases vss with
    | nil => exact spells_nil
    | cons vs vss => cases hlen
  | cons t ts ih =>
    cases vss with
    | nil => cases hlen
    | cons vs vss =>
      have ht : Spells t vs := h (t, vs) List.mem_cons_self
      have hts := ih (Nat.succ.inj hlen) fun p hp => h p (List.mem_cons_of_mem _ hp)
      cases ts with
      | nil =>
        cases vss with
        | nil => simpa [spaced] using ht
        | cons => cases hlen
      | cons u us => simpa [spaced, List.intercalate] using spells_append ht hts

theorem spells_singles {ts : List (List Char)} {xs : List Value} (hlen : ts.length = xs.length)
    (h : ∀ p ∈ ts.zip (xs.map ([·])), Spells p.1 p.2) : Spells (spaced ts) xs := by
  have hflat : (xs.map ([·])).flatten = xs := by rw [← List.flatMap_def, List.flatMap_singleton']
  have hall := spells_spaced (by simpa using hlen) h
  rwa [hflat] at hall

theorem isPlain_closeChar (b : Bracket) : isPlain b.closeChar = false := by cases b <;> decide

/-- A bracket around a text spells the sequence, or the map, of what the text spells. -/
theorem spells_bracket {b : Bracket} {t : List Char} {vs : List Value} {v : Value} (h : Spells t vs)
    (hv : Reader.close b vs = .ok v) : Spells (b.openChar :: t ++ [b.closeChar]) [v] := by
  obtain ⟨ts, hts, hscan⟩ := h
  refine ⟨_, forms_single (.bracket b hts hv), fun rest hr => ?_⟩
  have hopen : Token.ofMark? b.openChar = some (.opening b) := by cases b <;> rfl
  have hclose : Token.ofMark? b.closeChar = some (.closing b) := by cases b <;> rfl
  have hstop : Stops (b.closeChar :: rest) := stops_cons (isPlain_closeChar b) rest
  simp only [List.cons_append, List.append_assoc, List.nil_append]
  rw [Token.scan?_mark hopen (by cases b <;> decide), hscan _ hstop, Token.scan?_mark hclose (by cases b <;> decide)]
  cases Token.scan? rest <;> simp

/-- A text that spells one value is read as that value. -/
theorem read?_of_spells {t : List Char} {v : Value} (h : Spells t [v]) : Value.read? t = .ok v := by
  obtain ⟨ts, hts, hscan⟩ := h
  have hall : Token.scan? t = some ts := by simpa [Token.scan?_nil] using hscan [] stops_nil
  exact Value.read?_of_form hall (form_of_forms_single hts)

/-! ## The text of readable data -/

namespace Value

variable {contents : AtomId → Option (List Char)}

/-- A name that begins like no numeral and like no mark spells the value it names. -/
theorem spells_name {s : String} {v : Value} (hp : ∀ c ∈ s.toList, isPlain c = true)
    (hs : ∃ c r, s.toList = c :: r ∧ Token.ofMark? c = none) (hn : Numeral.startsLike s.toList = false)
    (hv : ofName s.toList = v) : Spells s.toList [v] :=
  spells_run ⟨hp, hs⟩ (by rw [ofPlain?_eq_ofName hn, hv])

/-- Printed items spell the items. -/
theorem spells_items {g : Value → Value} {xs : List Value}
    (ih : ∀ x ∈ xs, ∀ w, Reorders w x → ∃ t, w.render .readable contents = some t ∧ Spells t [g x]) {ys : List Value}
    (h : ReordersItems ys xs) :
    ∃ ts, renderItems .readable contents ys = some ts ∧ ts.length = (xs.map g).length ∧
      ∀ p ∈ ts.zip ((xs.map g).map ([·])), Spells p.1 p.2 := by
  induction xs generalizing ys with
  | nil =>
    cases h
    exact ⟨[], rfl, rfl, by simp⟩
  | cons x xs hxs =>
    cases h with
    | cons hy hys =>
      obtain ⟨t, ht, hspell⟩ := ih x List.mem_cons_self _ hy
      obtain ⟨ts, hts, hlen, hspells⟩ := hxs (fun x hx => ih x (List.mem_cons_of_mem _ hx)) hys
      refine ⟨t :: ts, by simp only [renderItems, ht, hts], by simp [hlen], fun p hp => ?_⟩
      rcases List.mem_cons.1 hp with rfl | hp
      · exact hspell
      · exact hspells p hp

/-- Printed entries spell keys and values in turn, in whatever order they are printed. -/
theorem spells_entries {g : Value → Value} {fs : Entries} (keys : ∀ e ∈ fs, e.1.Readable)
    (ih : ∀ e ∈ fs, ∀ w, Reorders w e.2 → ∃ t, w.render .readable contents = some t ∧ Spells t [g e.2]) {gs : Entries}
    (h : ReordersEntries gs fs) :
    ∃ ts, renderEntries .readable contents gs = some ts ∧ ts.length = fs.length ∧
      ∀ p ∈ ts.zip (fs.map fun e => [e.1.toValue, g e.2]), Spells p.1 p.2 := by
  induction fs generalizing gs with
  | nil =>
    cases h
    exact ⟨[], rfl, rfl, by simp⟩
  | cons f fs hfs =>
    cases h with
    | cons hy hgs =>
      obtain ⟨t, ht, hspell⟩ := ih _ List.mem_cons_self _ hy
      obtain ⟨ts, hts, hlen, hspells⟩ :=
        hfs (fun e he => keys e (List.mem_cons_of_mem _ he)) (fun e he => ih e (List.mem_cons_of_mem _ he)) hgs
      refine ⟨_ :: ts, by simp only [renderEntries, ht, hts]; rfl, by simp [hlen], fun p hp => ?_⟩
      rcases List.mem_cons.1 hp with rfl | hp
      · exact spells_append (spells_key (keys _ List.mem_cons_self)) hspell
      · exact hspells p hp

/-- The readable text of data, with the entries of their maps in any order, spells the data with whatever the texts of
their floats spell. -/
theorem spells_mapFloats {f : Float → Value} {v : Value} (hv : v.Legible)
    (hf : ∀ x, v.FloatIn x → Spells (layout.text x) [f x]) :
    ∀ w, Reorders w v → ∃ t, w.render .readable contents = some t ∧ Spells t [v.mapFloats f] := by
  induction hv with
  | nil =>
    intro w hw
    cases hw
    exact ⟨_, rfl, spells_name (s := "nil") (List.all_eq_true.1 rfl) ⟨_, _, rfl, rfl⟩ rfl rfl⟩
  | bool b =>
    intro w hw
    cases hw
    cases b with
    | false => exact ⟨_, rfl, spells_name (s := "false") (List.all_eq_true.1 rfl) ⟨_, _, rfl, rfl⟩ rfl rfl⟩
    | true => exact ⟨_, rfl, spells_name (s := "true") (List.all_eq_true.1 rfl) ⟨_, _, rfl, rfl⟩ rfl rfl⟩
  | int n =>
    intro w hw
    cases hw
    exact ⟨_, rfl, spells_run (Decimal.isRun_integer _) (ofPlain?_integer n)⟩
  | float x =>
    intro w hw
    cases hw
    exact ⟨_, rfl, hf x .float⟩
  | text s =>
    intro w hw
    cases hw
    exact ⟨_, rfl, spells_literal s⟩
  | symbol h =>
    intro w hw
    cases hw
    exact ⟨_, rfl, spells_run h.isRun (ofPlain?_symbol h)⟩
  | keyword h =>
    intro w hw
    cases hw
    exact ⟨_, rfl, spells_run (isRun_keyword h) (ofPlain?_keyword _)⟩
  | list h ih =>
    intro w hw
    obtain ⟨ys, rfl, hys⟩ := reorders_list hw
    obtain ⟨ts, hts, hlen, hspells⟩ := spells_items (fun x hx => ih x hx fun y hy => hf y (.list hx hy)) hys
    have hall := spells_singles hlen hspells
    rw [mapFloats, mapFloatsItems_eq]
    exact ⟨_, by simp only [render, hts, Option.map_some]; rfl, spells_bracket (b := .round) hall rfl⟩
  | vector h ih =>
    intro w hw
    obtain ⟨ys, rfl, hys⟩ := reorders_vector hw
    obtain ⟨ts, hts, hlen, hspells⟩ := spells_items (fun x hx => ih x hx fun y hy => hf y (.vector hx hy)) hys
    have hall := spells_singles hlen hspells
    rw [mapFloats, mapFloatsItems_eq]
    exact ⟨_, by simp only [render, hts, Option.map_some]; rfl, spells_bracket (b := .square) hall rfl⟩
  | @map es ordered keys values ih =>
    intro w hw
    obtain ⟨gs, fs, rfl, hgs, perm⟩ := reorders_map hw
    obtain ⟨ts, hts, hlen, hspells⟩ := spells_entries (fun e he => keys e (perm.mem_iff.1 he))
      (fun e he => ih e (perm.mem_iff.1 he) fun y hy => hf y (.map (perm.mem_iff.1 he) hy)) hgs
    have hall := spells_spaced (by simpa using hlen) hspells
    rw [mapFloats, mapFloatsEntries_eq]
    refine ⟨_, by simp only [render, hts, Option.map_some]; rfl, spells_bracket (b := .curly) hall ?_⟩
    have ordered' : Entries.Ordered (es.map fun e => (e.1, e.2.mapFloats f)) := List.pairwise_map.2 ordered
    have hitems : Entries.ofItems? (fs.map fun e => [e.1.toValue, e.2.mapFloats f]).flatten =
        .ok (es.map fun e => (e.1, e.2.mapFloats f)) := by
      rw [← Entries.insertAll_eq_of_perm ordered' (perm.map _), ← Entries.ofItems?_items, Entries.items,
        List.flatMap_def, List.map_map]
      rfl
    simp only [Reader.close, hitems]

/-- Values that are readable are legible; legible ones may hold floats besides. -/
theorem Readable.legible {v : Value} (hv : v.Readable) : v.Legible := by
  induction hv with
  | nil => exact .nil
  | bool b => exact .bool b
  | int n => exact .int n
  | text s => exact .text s
  | symbol h => exact .symbol h
  | keyword h => exact .keyword h
  | list _ ih => exact .list ih
  | vector _ ih => exact .vector ih
  | map ordered keys _ ih => exact .map ordered keys ih

/-- They hold no float. -/
theorem Readable.not_floatIn {v : Value} (hv : v.Readable) (x : Float) : ¬v.FloatIn x := by
  induction hv with
  | nil | bool | int | text | symbol | keyword => exact nofun
  | list _ ih =>
    rw [floatIn_list]
    exact fun ⟨v, hv, hx⟩ => ih v hv hx
  | vector _ ih =>
    rw [floatIn_vector]
    exact fun ⟨v, hv, hx⟩ => ih v hv hx
  | map _ _ _ ih =>
    rw [floatIn_map]
    exact fun ⟨e, he, hx⟩ => ih e he hx

/-- The readable text of readable data, with the entries of their maps in any order, spells the data. -/
theorem spells_render {v : Value} (hv : v.Readable) :
    ∀ w, Reorders w v → ∃ t, w.render .readable contents = some t ∧ Spells t [v] := by
  intro w hw
  obtain ⟨t, ht, spells⟩ := spells_mapFloats (f := .float) hv.legible (fun x hx => (hv.not_floatIn x hx).elim) w hw
  rw [(hv.legible.mapFloats_eq_self_iff .float).2 fun x _ => rfl] at spells
  exact ⟨t, ht, spells⟩

end Value

/-! ## What is read is readable -/

namespace Value

/-- Data without a float are readable. -/
theorem Legible.readable {v : Value} (hv : v.Legible) (h : ¬v.HasFloat) : v.Readable := by
  induction hv with
  | nil => exact .nil
  | bool b => exact .bool b
  | int n => exact .int n
  | float x => exact absurd (.float x) h
  | text s => exact .text s
  | symbol hs => exact .symbol hs
  | keyword hp => exact .keyword hp
  | list _ ih => exact .list fun x hx => ih x hx fun hf => h (.list hx hf)
  | vector _ ih => exact .vector fun x hx => ih x hx fun hf => h (.vector hx hf)
  | map ordered keys _ ih => exact .map ordered keys fun e he => ih e he fun hf => h (.map he hf)

/-- A key that is legible as a value is readable. -/
theorem readable_of_legible {k : Key} (h : k.toValue.Legible) : k.Readable := by
  cases k with
  | text s => trivial
  | keyword name =>
    cases h with
    | keyword h => exact h

theorem legible_map {xs : List Value} {es : Entries} (h : Entries.ofItems? xs = .ok es) (hxs : ∀ x ∈ xs, x.Legible) :
    (map es).Legible := by
  obtain ⟨hord, hmem⟩ := Entries.of_ofItems? h
  exact .map hord (fun e he => readable_of_legible (hxs _ (hmem e he).1)) fun e he => hxs _ (hmem e he).2

/-- What a plain token is read as is legible. -/
theorem legible_of_literal {chars : List Char} {v : Value} (h : IsRun chars) (hv : Literal chars v) : v.Legible := by
  obtain ⟨hp, c, r, rfl, hm⟩ := h
  cases hv with
  | number _ hv =>
    rcases Numeral.value?_eq_some hv with ⟨i, rfl⟩ | ⟨x, rfl⟩
    · exact .int i
    · exact .float x
  | nil => exact .nil
  | true => exact .bool true
  | false => exact .bool false
  | keyword name => exact .keyword fun d hd => hp d (List.mem_cons_of_mem _ (by simpa using hd))
  | symbol hn hr hk =>
    have notNumeral : Numeral.startsLike (c :: r) = false := by simpa using fun h => hn (Numeral.startsLike_iff.1 h)
    have differs {t : String} (ht : t.toList ∈ ["nil".toList, "true".toList, "false".toList]) :
        String.ofList (c :: r) ≠ t := by
      rintro rfl
      exact hr ((String.toList_ofList (l := c :: r)) ▸ ht)
    refine .symbol ⟨by simpa using hp, ⟨c, r, by simp, ?_, ?_, ?_, fun he => hk (by rw [he]; rfl)⟩,
      ⟨differs (by simp), differs (by simp), differs (by simp)⟩, by simpa using notNumeral⟩ <;>
      rintro rfl <;> cases hm

/-- The names that marks stand for are names. -/
theorem isName_shorthand (s : Shorthand) : IsName s.name := by
  cases s <;>
    exact ⟨List.all_eq_true.1 rfl, ⟨_, _, rfl, by decide, by decide, by decide, by decide⟩, by decide, rfl⟩

theorem legible_shorthand (s : Shorthand) {v : Value} (h : v.Legible) : (list [symbol s.name, v]).Legible := by
  refine .list fun x hx => ?_
  simp only [List.mem_cons, List.not_mem_nil, or_false] at hx
  rcases hx with rfl | rfl
  · exact .symbol (isName_shorthand s)
  · exact h

end Value

/-- What a bracket makes of legible elements is legible. -/
theorem Value.legible_close {b : Bracket} {items : List Value} {v : Value} (h : Reader.close b items = .ok v)
    (hi : ∀ x ∈ items, x.Legible) : v.Legible := by
  rcases Reader.close_eq_ok h with ⟨-, rfl⟩ | ⟨-, rfl⟩ | ⟨es, -, hes, rfl⟩
  · exact .list hi
  · exact .vector hi
  · exact legible_map hes hi

mutual

/-- A form is legible if the plain runs among its tokens are runs. -/
theorem legible_of_form {ts : List Token} {v : Value} (h : Form ts v) (ht : ∀ chars, .plain chars ∈ ts → IsRun chars) :
    v.Legible := by
  match h with
  | .string _ => exact .text _
  | .plain hv =>
    exact Value.legible_of_literal (ht _ List.mem_cons_self) (Value.ofPlain?_eq_ok_iff.1 hv)
  | .shorthand s h =>
    exact Value.legible_shorthand s (legible_of_form h fun chars hc => ht chars (List.mem_cons_of_mem _ hc))
  | .bracket b h hv =>
    exact Value.legible_close hv
      (legible_of_forms h fun chars hc => ht chars (List.mem_cons_of_mem _ (List.mem_append_left _ hc)))

/-- Every form that is read is legible, by induction on the grammar. -/
theorem legible_of_forms {ts : List Token} {vs : List Value} (h : Forms ts vs)
    (ht : ∀ chars, .plain chars ∈ ts → IsRun chars) : ∀ v ∈ vs, v.Legible := by
  match h with
  | .nil => simp
  | .cons hv hs =>
    have first := legible_of_form hv fun chars hc => ht chars (List.mem_append_left _ hc)
    have others := legible_of_forms hs fun chars hc => ht chars (List.mem_append_right _ hc)
    simp only [List.mem_cons, forall_eq_or_imp]
    exact ⟨first, others⟩

end

namespace Value

/-- Every value that is read from a text is legible. -/
theorem legible_read? {s : List Char} {v : Value} (h : read? s = .ok v) : v.Legible := by
  obtain ⟨ts, us, rest, hs, hu, form⟩ := form_of_read? h
  refine legible_of_form form fun chars hc => Token.wellFormed_of_scan? hs (.plain chars) ?_
  have kept : Token.plain chars ∈ Token.uncommented ts := hu ▸ List.mem_append_left rest hc
  exact (List.mem_filter.1 kept).1

/-- What the reader may have put together: a float somewhere, or readable data. -/
def Kept (v : Value) : Prop := v.HasFloat ∨ v.Readable

theorem kept_read? {s : List Char} {v : Value} (h : read? s = .ok v) : v.Kept := by
  by_cases hf : v.HasFloat
  · exact .inl hf
  · exact .inr ((legible_read? h).readable hf)

end Value

/-- **Printing and reading.** The readable text of readable data, whatever order the entries of their maps are printed
in, reads back as the same data; and what is read from any text is readable data, unless it has a float in it. -/
theorem readable_text_reads_back :
    (∀ (m : Machine) (v w : Value), v.Readable → w.Reorders v →
      ∃ t, m.text? .readable w = some t ∧ Value.read? t.toList = .ok v) ∧
    (∀ (s : List Char) (v : Value), Value.read? s = .ok v → ¬ v.HasFloat → v.Readable) := by
  constructor
  · intro m v w hv hw
    obtain ⟨t, ht, hspells⟩ := Value.spells_render hv w hw
    refine ⟨String.ofList t, by rw [Machine.text?, ht]; rfl, ?_⟩
    rw [String.toList_ofList]
    exact read?_of_spells hspells
  · intro s v h hf
    exact (Value.kept_read? h).resolve_left hf

/-- A map whose two entries are printed in the other order, with a quote and a line break in a text, and a text with a
mark in it. -/
theorem readable_text_reads_back_swapped :
    let a : Key × Value := (.keyword "a", .text "q\"\n")
    let k : Key × Value := (.text "k", .vector [.symbol "x", .list [.int (-1)]])
    let quoted : Value := .list [.symbol "quote", .symbol "a"]
    (Value.map [a, k]).Readable ∧ (Value.map [k, a]).Reorders (.map [a, k]) ∧
      (∃ t, Machine.empty.text? .readable (.map [k, a]) = some t ∧ Value.read? t.toList = .ok (.map [a, k])) ∧
      Value.read? "'a".toList = .ok quoted ∧ ¬ quoted.HasFloat ∧ quoted.Readable := by
  intro a k quoted
  have hx : IsName "x" :=
    ⟨List.all_eq_true.1 rfl, ⟨_, _, rfl, by decide, by decide, by decide, by decide⟩, by decide, rfl⟩
  have hk : k.2.Readable := by
    refine .vector fun v hv => ?_
    simp only [List.mem_cons, List.not_mem_nil, or_false] at hv
    rcases hv with rfl | rfl
    · exact .symbol hx
    · refine .list fun v hv => ?_
      rw [List.mem_singleton.1 hv]
      exact .int (-1)
  have hv : (Value.map [a, k]).Readable := by
    refine .map (by simp [Entries.Ordered, a, k, Key.before]) (fun e he => ?_) (fun e he => ?_) <;>
      simp only [List.mem_cons, List.not_mem_nil, or_false] at he <;> rcases he with rfl | rfl
    · exact List.all_eq_true.1 (rfl : "a".toList.all isPlain = true)
    · trivial
    · exact .text _
    · exact hk
  have hw : (Value.map [k, a]).Reorders (.map [a, k]) :=
    .map (Value.reordersEntries_refl _) (List.Perm.swap a k [])
  have hread : Value.read? "'a".toList = .ok quoted := by cbv
  have hfloat : ¬ quoted.HasFloat := by
    intro hf
    change (Value.list [.symbol "quote", .symbol "a"]).HasFloat at hf
    cases hf with
    | list hmem hf =>
      simp only [List.mem_cons, List.not_mem_nil, or_false] at hmem
      rcases hmem with rfl | rfl <;> cases hf
  exact ⟨hv, hw, readable_text_reads_back.1 Machine.empty _ _ hv hw, hread, hfloat,
    readable_text_reads_back.2 _ _ hread hfloat⟩

end MiniLisp

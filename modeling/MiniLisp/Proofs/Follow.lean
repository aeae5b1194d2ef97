import Mathlib
import MiniLisp.Proofs.Holding
import MiniLisp.Proofs.World

/-!
# Runs that follow each other

A run follows another one if, from machines that agree, it comes to what the other one comes to, prints and records
the same, and leaves machines that agree again, with all that is new in common. What the operations of evaluation do to
machines keeps that (`Follows.bind`, `Follows.addFrame`, `Follows.bindName` and others).

* `World.Advances`, `World.Continues`: how a world and its machines go on.
* `Follows`: one run follows another one.
-/

namespace MiniLisp

open Refers (rename refs)

/-! ## How machines go on -/

namespace Machine

theorem count_bind (m : Machine) (e : FrameId) (name : String) (v : Value) (k : RefKind) :
    (m.bind e name v).count k = m.count k := by
  cases k <;> simp [Machine.bind, Machine.count]

theorem count_setAtom (m : Machine) (a : AtomId) (v : Value) (k : RefKind) : (m.setAtom a v).count k = m.count k := by
  cases k <;> simp [Machine.setAtom, Machine.count]

/-- Nothing is lost, and only what is in the set changes. -/
structure ChangesWithin (S : Set Ref) (m m' : Machine) : Prop where
  count (k : RefKind) : m.count k ≤ m'.count k
  frame {e : FrameId} (he : e < m.frames.size) (h : ⟨.frame, e⟩ ∉ S) : m'.frames[e]? = m.frames[e]?
  atom {a : AtomId} (ha : a < m.atoms.size) (h : ⟨.atom, a⟩ ∉ S) : m'.atoms[a]? = m.atoms[a]?

theorem ChangesWithin.of_eq {S : Set Ref} {m m' : Machine} (hf : m'.frames = m.frames) (ha : m'.atoms = m.atoms)
    (hc : m'.closures = m.closures) : m.ChangesWithin S m' := by
  refine ⟨fun k => ?_, fun _ _ => by rw [hf], fun _ _ => by rw [ha]⟩
  cases k <;> simp [Machine.count, hf, ha, hc]

protected theorem ChangesWithin.refl (S : Set Ref) (m : Machine) : m.ChangesWithin S m := .of_eq rfl rfl rfl

/-- What changes within a set changes within every larger one. -/
theorem ChangesWithin.mono {S T : Set Ref} {m m' : Machine} (h : m.ChangesWithin S m') (hs : S ⊆ T) :
    m.ChangesWithin T m' :=
  ⟨h.count, fun he hn => h.frame he fun hx => hn (hs hx), fun ha hn => h.atom ha fun hx => hn (hs hx)⟩

/-- Two stretches of a run, one after the other. The second may touch more than the first, as long as what it touches
beyond is newer than the first machine. -/
theorem ChangesWithin.trans {S T : Set Ref} {m m' m'' : Machine} (h : m.ChangesWithin S m')
    (h' : m'.ChangesWithin T m'') (hs : ∀ {x : Ref}, x ∈ T → x.index < m.count x.kind → x ∈ S) :
    m.ChangesWithin S m'' := by
  refine ⟨fun k => (h.count k).trans (h'.count k), fun {e} he hn => ?_, fun {a} ha hn => ?_⟩
  · have below := Nat.lt_of_lt_of_le he (h.count .frame)
    exact (h'.frame below fun hx => hn (hs hx he)).trans (h.frame he hn)
  · have below := Nat.lt_of_lt_of_le ha (h.count .atom)
    exact (h'.atom below fun hx => hn (hs hx ha)).trans (h.atom ha hn)

/-- An atom outside the set that was there before keeps its value. -/
theorem ChangesWithin.atomValue {S : Set Ref} {m m' : Machine} (h : m.ChangesWithin S m') {a : AtomId}
    (ha : a < m.atoms.size) (hn : ⟨.atom, a⟩ ∉ S) : m'.atomValue a = m.atomValue a := by
  simp only [Machine.atomValue, Array.getD_eq_getD_getElem?, h.atom ha hn]

/-- A binding touches its own frame and nothing else. -/
theorem ChangesWithin.bind {S : Set Ref} {e : FrameId} (h : ⟨.frame, e⟩ ∈ S) (m : Machine) (name : String) (v : Value) :
    m.ChangesWithin S (m.bind e name v) := by
  refine ⟨fun k => (m.count_bind e name v k).ge, fun {e'} he' hn => ?_, fun _ _ => rfl⟩
  · have other : e ≠ e' := by
      rintro rfl
      exact hn h
    rw [Machine.bind, Array.getElem?_modify, if_neg other]

/-- A write touches its own atom and nothing else. -/
theorem ChangesWithin.setAtom {S : Set Ref} {a : AtomId} (h : ⟨.atom, a⟩ ∈ S) (m : Machine) (v : Value) :
    m.ChangesWithin S (m.setAtom a v) := by
  refine ⟨fun k => (m.count_setAtom a v k).ge, fun _ _ => rfl, fun {b} _ hn => ?_⟩
  · have other : a ≠ b := by
      rintro rfl
      exact hn h
    rw [Machine.setAtom, Array.getElem?_setIfInBounds_ne other]

/-- Two runs print and record the same. -/
structure SameOutput (m m' n n' : Machine) : Prop where
  printed : ∃ text, m'.printed = m.printed ++ text ∧ n'.printed = n.printed ++ text
  records : ∃ records, m'.records = m.records ++ records ∧ n'.records = n.records ++ records

variable {m m' m'' n n' n'' : Machine}

theorem SameOutput.of_eq (hp : m'.printed = m.printed) (hp' : n'.printed = n.printed) (hr : m'.records = m.records)
    (hr' : n'.records = n.records) : SameOutput m m' n n' :=
  ⟨⟨"", by simp [hp], by simp [hp']⟩, ⟨#[], by simp [hr], by simp [hr']⟩⟩

/-- Outputs are put end to end, so equal pieces add up to equal outputs. -/
theorem SameOutput.trans (h : SameOutput m m' n n') (h' : SameOutput m' m'' n' n'') : SameOutput m m'' n n'' := by
  obtain ⟨⟨t, ht, ht'⟩, ⟨rs, hr, hr'⟩⟩ := h
  obtain ⟨⟨u, hu, hu'⟩, ⟨ss, hs, hs'⟩⟩ := h'
  exact ⟨⟨t ++ u, by rw [hu, ht, String.append_assoc], by rw [hu', ht', String.append_assoc]⟩,
    ⟨rs ++ ss, by rw [hs, hr, Array.append_assoc], by rw [hs', hr', Array.append_assoc]⟩⟩

/-- Where one of two runs has printed nothing, the other has printed nothing either. -/
theorem SameOutput.silent (h : SameOutput m m' n n') (hm : m'.printed = m.printed) : n'.printed = n.printed := by
  obtain ⟨text, ht, ht'⟩ := h.printed
  have nothing : text = "" := by
    rw [hm] at ht
    exact (String.append_right_inj m.printed).1 (ht.symm.trans String.append_empty.symm)
  rw [ht', nothing, String.append_empty]

end Machine

namespace World

variable {W W' W'' : World} {m m' m'' n n' n'' : Machine}

/-- What the references in common are in the second machine. -/
def image (W : World) : Set Ref := Ref.rename W.map '' W.shared

/-- The name an object goes by belongs to the image. -/
theorem Names.mem_image {k : RefKind} {i j : Nat} (h : W.Names k i j) : ⟨k, j⟩ ∈ W.image :=
  ⟨⟨k, i⟩, h.mem, congrArg (Ref.mk k) h.eq.symm⟩

/-- How a world and its machines go on. What is shared anew was not there before, and nothing but what is shared
changes. -/
structure Advances (W : World) (m n : Machine) (W' : World) (m' n' : Machine) : Prop where
  le : W.LE W'
  fresh {x : Ref} (h : x ∈ W'.shared) :
    x ∈ W.shared ∨ m.count x.kind ≤ x.index ∧ n.count x.kind ≤ W'.map x.kind x.index
  changes : m.ChangesWithin W.shared m'
  changes' : n.ChangesWithin W.image n'
  output : Machine.SameOutput m m' n n'

namespace Advances

protected theorem refl (W : World) (m n : Machine) : W.Advances m n W m n :=
  ⟨.refl W, .inl, .refl _ m, .refl _ n, .of_eq rfl rfl rfl rfl⟩

/-- A shared object that was there before the run was shared before it: a run shares new objects only. -/
theorem old (h : W.Advances m n W' m' n') {x : Ref} (hx : x ∈ W'.shared) (hi : x.index < m.count x.kind) :
    x ∈ W.shared :=
  (h.fresh hx).elim id fun hge => absurd hi (Nat.not_lt.2 hge.1)

/-- The same for the names in the other machine. -/
theorem old_image (h : W.Advances m n W' m' n') {y : Ref} (hy : y ∈ W'.image) (hi : y.index < n.count y.kind) :
    y ∈ W.image := by
  obtain ⟨x, hx, rfl⟩ := hy
  rcases h.fresh hx with hx | ⟨-, hge⟩
  · exact ⟨x, hx, (h.le.map hx).symm⟩
  · exact absurd hi (Nat.not_lt.2 hge)

/-- Two stretches of a pair of runs make one stretch. -/
theorem trans (h : W.Advances m n W' m' n') (h' : W'.Advances m' n' W'' m'' n'') : W.Advances m n W'' m'' n'' where
  le := h.le.trans h'.le
  fresh {x} hx := by
    rcases h'.fresh hx with hx | ⟨hge, hge'⟩
    · have same := h'.le.apply (k := x.kind) (i := x.index) hx
      rw [same]
      exact h.fresh hx
    · exact .inr ⟨(h.changes.count _).trans hge, (h.changes'.count _).trans hge'⟩
  changes := h.changes.trans h'.changes fun hx hi => h.old hx hi
  changes' := h.changes'.trans h'.changes' fun hy hi => h.old_image hy hi
  output := h.output.trans h'.output

end Advances

/-- How a world and its machines go on when all that is new is shared. -/
structure Continues (W : World) (m n : Machine) (W' : World) (m' n' : Machine) : Prop
    extends W.Advances m n W' m' n' where
  fills {x : Ref} (hk : x.kind ≠ .root) (h : m.count x.kind ≤ x.index) (h' : x.index < m'.count x.kind) : x ∈ W'.shared
  fills' {y : Ref} (hk : y.kind ≠ .root) (h : n.count y.kind ≤ y.index) (h' : y.index < n'.count y.kind) : y ∈ W'.image

/-- A world that grows keeps the names it has given. -/
theorem LE.image_subset (h : W.LE W') : W.image ⊆ W'.image := by
  rintro _ ⟨x, hx, rfl⟩
  exact ⟨x, h.shared hx, h.map hx⟩

namespace Continues

/-- Nothing is new. -/
theorem of_count (h : W.Advances m n W m' n') (hc : ∀ k, m'.count k = m.count k) (hc' : ∀ k, n'.count k = n.count k) :
    W.Continues m n W m' n' where
  toAdvances := h
  fills {x} _ hge hlt := absurd (hc x.kind ▸ hlt) (Nat.not_lt.2 hge)
  fills' {y} _ hge hlt := absurd (hc' y.kind ▸ hlt) (Nat.not_lt.2 hge)

protected theorem refl (W : World) (m n : Machine) : W.Continues m n W m n :=
  of_count (.refl W m n) (fun _ => rfl) fun _ => rfl

/-- Continuing twice is continuing once: the machines, the changes and the outputs are put end to end. -/
theorem trans (h : W.Continues m n W' m' n') (h' : W'.Continues m' n' W'' m'' n'') :
    W.Continues m n W'' m'' n'' where
  toAdvances := h.toAdvances.trans h'.toAdvances
  fills {x} hk hge hlt := by
    by_cases hx : x.index < m'.count x.kind
    · exact h'.le.shared (h.fills hk hge hx)
    · exact h'.fills hk (Nat.not_lt.1 hx) hlt
  fills' {y} hk hge hlt := by
    by_cases hy : y.index < n'.count y.kind
    · exact h'.le.image_subset (h.fills' hk hge hy)
    · exact h'.fills' hk (Nat.not_lt.1 hy) hlt

end Continues

/-! ## Runs -/

/-- What two runs come to. -/
inductive Outcome {α β : Type} (R : World → α → β → Prop) (W : World) :
    Except EvalError α → Except EvalError β → Prop
  | ok {a : α} {b : β} (h : R W a b) : Outcome R W (.ok a) (.ok b)
  | error {fault fault' : EvalError} (h : W.Rel fault fault') : Outcome R W (.error fault) (.error fault')

end World

/-- Where two runs come from: machines and what they had in common there. Only on some machines does it count that the
first run finds a root gone. -/
structure Origin where
  world : World
  left : Machine
  right : Machine
  gone : Machine → Prop

/-- What has come of a start: the machines agree, and all that is new is in common. -/
structure Origin.Leads (o : Origin) (W : World) (m n : Machine) : Prop where
  agrees : W.Agrees m n
  since : o.world.Continues o.left o.right W m n

/-- A pair of machines that comes from the origin still does after the next stretch of both runs. -/
theorem Origin.Leads.go {o : Origin} {W W' : World} {m n m' n' : Machine} (h : o.Leads W m n) (ha : W'.Agrees m' n')
    (hc : W.Continues m n W' m' n') : o.Leads W' m' n' :=
  ⟨ha, h.since.trans hc⟩

/-- Wherever the first run ends, from machines that have come of the start, the second one ends as well, and so that
the outcomes are related and the machines have come of the start again. -/
def Follows (o : Origin) {α β : Type} (R : World → α → β → Prop) (W : World) (x : Run α) (y : Run β) : Prop :=
  ∀ (m n m' : Machine) (r : Except EvalError α), o.Leads W m n → x m = some (r, m') → (IsDetached r → o.gone m') →
    ∃ (W' : World) (s : Except EvalError β) (n' : Machine), y n = some (s, n') ∧ o.Leads W' m' n' ∧ W.LE W' ∧
      W'.Outcome R r s

/-- Related data. -/
abbrev World.Related {α : Type} [Refers α] (W : World) (a a' : α) : Prop := W.Rel a a'

namespace Follows

open World (Related)

variable {o : Origin} {α β γ δ : Type} {R : World → α → β → Prop} {Q : World → γ → δ → Prop} {W : World} {x : Run α}
  {y : Run β}

/-- Runs that end at once follow each other when their outcomes are related. -/
theorem pure {a : α} {b : β} (h : R W a b) : Follows o R W (Run.pure a) (Run.pure b) := by
  intro m n m' r hl hr _
  cases hr
  exact ⟨W, _, n, rfl, hl, .refl W, .ok h⟩

/-- Runs that fail at once follow each other when their faults are related. -/
theorem fail {fault fault' : EvalError} (h : W.Rel fault fault') :
    Follows o R W (Run.fail fault) (Run.fail fault') := by
  intro m n m' r hl hr _
  cases hr
  exact ⟨W, _, n, rfl, hl, .refl W, .error h⟩

/-- Runs in sequence follow each other: the second halves are compared in the world the first halves have reached. -/
theorem bind {f : α → Run γ} {g : β → Run δ} (h : Follows o R W x y)
    (hf : ∀ {W' : World}, W.LE W' → ∀ (a : α) (b : β), R W' a b → Follows o Q W' (f a) (g b)) :
    Follows o Q W (Run.bind x f) (Run.bind y g) := by
  intro m n m' r hl hr hg
  rcases Run.bind_eq_some hr with ⟨fault, m₁, hx, hr⟩ | ⟨a, m₁, hx, hr⟩
  · cases hr
    obtain ⟨W', s, n', hy, hl', le, out⟩ := h m n _ _ hl hx fun ⟨name, hname⟩ => hg ⟨name, by cases hname; rfl⟩
    cases out with
    | error hfault => exact ⟨W', _, n', Run.bind_error hy, hl', le, .error hfault⟩
  · obtain ⟨W', s, n', hy, hl', le, out⟩ := h m n _ _ hl hx fun ⟨_, hname⟩ => nomatch hname
    cases out with
    | ok hab =>
      obtain ⟨W'', s', n'', hy', hl'', le', out'⟩ := hf le _ _ hab m₁ n' m' r hl' hr hg
      exact ⟨W'', s', n'', (Run.bind_ok hy).trans hy', hl'', le.trans le', out'⟩

/-- What is observed may find no root gone that counts. -/
theorem observe {f : α → Run Unit} {g : β → Run Unit} {f' g' : EvalError → Run Unit}
    (h : Follows { o with gone := fun _ => True } R W x y)
    (hR : ∀ {W W' : World} {a : α} {b : β}, W.LE W' → R W a b → R W' a b)
    (hf : ∀ {W' : World}, W.LE W' → ∀ (a : α) (b : β), R W' a b → Follows o Related W' (f a) (g b))
    (hf' : ∀ {W' : World}, W.LE W' → ∀ fault fault' : EvalError, W'.Rel fault fault' →
      Follows o Related W' (f' fault) (g' fault')) :
    Follows o R W (Run.observe x f f') (Run.observe y g g') := by
  intro m n m' r hl hr hg
  have leads {W : World} {m n : Machine} (hl : o.Leads W m n) : Origin.Leads { o with gone := fun _ => True } W m n :=
    ⟨hl.agrees, hl.since⟩
  rcases Run.observe_eq_some hr with ⟨fault, m₁, hx, hr⟩ | ⟨a, m₁, hx, hr⟩
  · obtain ⟨W', s, n', hy, hl', le, out⟩ := h m n _ _ (leads hl) hx fun _ => trivial
    cases out with
    | error hfault =>
      have after := (hf' le _ _ hfault).bind (Q := R) fun le _ _ _ => fail (hfault.mono le)
      obtain ⟨W'', s', n'', hy', hl'', le', out'⟩ := after m₁ n' m' r ⟨hl'.agrees, hl'.since⟩ hr hg
      exact ⟨W'', s', n'', (Run.observe_error hy).trans hy', hl'', le.trans le', out'⟩
  · obtain ⟨W', s, n', hy, hl', le, out⟩ := h m n _ _ (leads hl) hx fun _ => trivial
    cases out with
    | ok hab =>
      have after := (hf le _ _ hab).bind (Q := R) fun le _ _ _ => pure (hR le hab)
      obtain ⟨W'', s', n'', hy', hl'', le', out'⟩ := after m₁ n' m' r ⟨hl'.agrees, hl'.since⟩ hr hg
      exact ⟨W'', s', n'', (Run.observe_ok hy).trans hy', hl'', le.trans le', out'⟩

/-- What is read off two machines that agree is related when the readings are. -/
theorem gets {f : Machine → α} {g : Machine → β} (h : ∀ {m n : Machine}, W.Agrees m n → R W (f m) (g n)) :
    Follows o R W (Run.gets f) (Run.gets g) := by
  intro m n m' r hl hr _
  cases hr
  exact ⟨W, _, n, rfl, hl, .refl W, .ok (h hl.agrees)⟩

theorem ofExcept {a a' : Except EvalError γ} [Refers γ] (h : W.Rel a a') :
    Follows o Related W (Run.ofExcept a) (Run.ofExcept a') := by
  obtain rfl := h.eq
  cases a with
  | ok a => exact pure ⟨rfl, h.shared⟩
  | error fault => exact fail ⟨rfl, h.shared⟩

end Follows

/-! ## Contexts and messages -/

/-- Contexts with the same files that ask for the same records. -/
structure Context.Akin (ctx ctx' : Context) : Prop where
  files : ctx'.files = ctx.files
  recorded : ctx'.recorded = ctx.recorded

namespace World

variable {W W' : World} {ctx ctx' : Context} {m n : Machine}

/-- Contexts with the same files that ask for the same records and hold the roots of all shared rooted builtins. -/
structure Contexts (W : World) (ctx ctx' : Context) : Prop where
  files : ctx'.files = ctx.files
  recorded : ctx'.recorded = ctx.recorded
  held {r : FrameId} (h : ⟨.root, r⟩ ∈ W.shared) : r ∈ ctx.held.frames ∧ W.map .root r ∈ ctx'.held.frames

namespace Contexts

/-- Related contexts have the same files and the same levels recorded. -/
theorem akin (h : W.Contexts ctx ctx') : ctx.Akin ctx' := ⟨h.files, h.recorded⟩

/-- Related contexts stay related as the world grows. -/
theorem mono (h : W.Contexts ctx ctx') (le : W.LE W') : W'.Contexts ctx ctx' :=
  ⟨h.files, h.recorded, fun hr => by
    rw [le.apply (le.root hr)]
    exact h.held (le.root hr)⟩

/-- What a context holds besides does not enter the relation, so two frames may be added that are not related. -/
theorem holdFrame (h : W.Contexts ctx ctx') (e e' : FrameId) : W.Contexts (ctx.holdFrame e) (ctx'.holdFrame e') :=
  ⟨h.files, h.recorded, fun hr => ⟨List.mem_cons_of_mem _ (h.held hr).1, List.mem_cons_of_mem _ (h.held hr).2⟩⟩

theorem holdItems (h : W.Contexts ctx ctx') (vs vs' : List Value) :
    W.Contexts (ctx.holdItems vs) (ctx'.holdItems vs') :=
  ⟨h.files, h.recorded, h.held⟩

end Contexts

/-- Messages that say the same of machines that agree. -/
def SameMessage (W : World) (message message' : Message) : Prop :=
  ∀ m n : Machine, W.Agrees m n → message' (n.contents .readable) = message (m.contents .readable)

theorem sameMessage_const (text : String) : W.SameMessage (fun _ => some text) (fun _ => some text) := fun _ _ _ => rfl

/-- Related values give the same message, since they print alike in machines that agree. -/
theorem sameMessage_value (what : String) {v v' : Value} (h : W.Rel v v') :
    W.SameMessage (Message.value what v) (Message.value what v') := by
  intro m n hm
  simp only [Message.value, hm.render .readable h]

/-- A reading that is the same of related values is the same of related lists of arguments. -/
theorem mapM_eq {α : Type} {g g' : Value → Option α}
    (hg : ∀ {v v' : Value}, W.Rel v v' → g' v' = g v) {args args' : List Value} (h : W.Rel args args') :
    args'.mapM g' = args.mapM g := by
  induction args generalizing args' with
  | nil => rw [h.of_nil_list]; rfl
  | cons v args ih =>
    obtain ⟨v', args', rfl, hv, hs⟩ := h.of_cons
    rw [List.mapM_cons, List.mapM_cons, hg hv, ih hs]

theorem sameMessage_joined (between : String) {args args' : List Value} (h : W.Rel args args') :
    W.SameMessage (Message.joined between args) (Message.joined between args') := by
  intro m n hm
  simp only [Message.joined, mapM_eq (fun hv => hm.render .readable hv) h]

/-- Related arguments are recorded by the same text. -/
theorem sameMessage_argsText {args args' : List Value} (h : W.Rel args args') :
    W.SameMessage (Call.argsText args) (Call.argsText args') := by
  intro m n hm
  match args with
  | [] => rw [h.of_nil_list]; rfl
  | [v] =>
    obtain ⟨v', args', rfl, hv, hs⟩ := h.of_cons
    rw [hs.of_nil_list]
    exact sameMessage_value "" hv m n hm
  | v :: w :: rest =>
    obtain ⟨v', args', rfl, hv, hs⟩ := h.of_cons
    obtain ⟨w', rest', rfl, hw, hr⟩ := hs.of_cons
    have joined := sameMessage_joined "\n\t" (hv.cons (hw.cons hr)) m n hm
    simp only [Call.argsText, joined]

theorem sameMessage_callText {what what' : Message} (hw : W.SameMessage what what') {args args' : List Value}
    (h : W.Rel args args') : W.SameMessage (Call.callText what args) (Call.callText what' args') := by
  intro m n hm
  simp only [Call.callText, hw m n hm, sameMessage_argsText h m n hm]

theorem sameMessage_closureText (params : Params) {body body' : Value} (isMacro : Bool) (h : W.Rel body body') :
    W.SameMessage (Call.closureText params body isMacro) (Call.closureText params body' isMacro) := by
  intro m n hm
  simp only [Call.closureText, sameMessage_value _ h m n hm]

theorem sameMessage_bindText (form : SpecialForm) {target target' v v' : Value} (ht : W.Rel target target')
    (hv : W.Rel v v') : W.SameMessage (Step.bindText form target v) (Step.bindText form target' v') := by
  intro m n hm
  simp only [Step.bindText, sameMessage_value _ ht m n hm, sameMessage_value _ hv m n hm]

/-- Related faults have the same message: names of frames and atoms never occur in it. -/
theorem sameMessage_fault {fault fault' : EvalError} (h : W.Rel fault fault') :
    W.SameMessage (fun contents => fault.message contents) (fun contents => fault'.message contents) := by
  intro m n hm
  obtain rfl := h.eq
  cases fault with
  | thrown payload =>
    have payloads : W.Rel payload (rename W.map payload) := ⟨rfl, h.shared⟩
    exact congrArg (Option.map _) (hm.render .readable payloads)
  | badMap fault => cases fault <;> rfl
  | _ => rfl

end World

/-! ## What operations do to machines -/

namespace World

variable {W : World} {m n m' n' : Machine} {k : RefKind}

/-- The world with a number of a kind shared as well, as another number. -/
def extend (W : World) (k : RefKind) (i j : Nat) : World :=
  ⟨Function.update W.map k (Equiv.swap (W.map k i) j * W.map k), insert ⟨k, i⟩ W.shared⟩

theorem extend_map (W : World) (k : RefKind) (i j : Nat) : (W.extend k i j).map k i = j := by
  simp [extend]

/-- The world extended by a pair names the one by the other. -/
theorem extend_names (W : World) (k : RefKind) (i j : Nat) : (W.extend k i j).Names k i j := by
  have new := names (W := W.extend k i j) (Set.mem_insert (⟨k, i⟩ : Ref) W.shared)
  rwa [extend_map] at new

/-- What is new on both sides can be shared. -/
theorem le_extend (hm : W.Agrees m n) (hk : k ≠ .root) : W.LE (W.extend k (m.count k) (n.count k)) := by
  refine ⟨fun hx => Set.mem_insert_of_mem _ hx, fun {x} hx => ?_, fun {r} hr => ?_⟩
  · obtain ⟨k', i⟩ := x
    by_cases h : k' = k
    · subst h
      obtain ⟨lt, lt'⟩ := hm.bound hx
      have ne : W.map k' i ≠ W.map k' (m.count k') := fun h => (Nat.ne_of_lt lt) ((W.map k').injective h)
      simp only [extend, Ref.rename_mk, Function.update_self, Equiv.Perm.mul_apply,
        Equiv.swap_apply_of_ne_of_ne ne (Nat.ne_of_lt lt')]
    · simp only [extend, Ref.rename_mk, Function.update_of_ne h]
  · rcases Set.mem_insert_iff.1 hr with h | h
    · exact absurd (congrArg Ref.kind h).symm hk
    · exact h

/-- What is there stays in bounds when one thing of a kind is added on both sides. -/
theorem bound_extend (hm : W.Agrees m n) (hk : k ≠ .root) (hc : ∀ k', m.count k' ≤ m'.count k')
    (hc' : ∀ k', n.count k' ≤ n'.count k') (hi : m.count k < m'.count k) (hj : n.count k < n'.count k) {x : Ref}
    (hx : x ∈ (W.extend k (m.count k) (n.count k)).shared) :
    x.index < m'.count x.kind ∧ (W.extend k (m.count k) (n.count k)).map x.kind x.index < n'.count x.kind := by
  rcases Set.mem_insert_iff.1 hx with rfl | hx
  · exact ⟨hi, by rw [extend_map]; exact hj⟩
  · obtain ⟨lt, lt'⟩ := hm.bound hx
    have same := (le_extend hm hk).apply (k := x.kind) (i := x.index) hx
    exact ⟨lt.trans_le (hc _), by rw [same]; exact lt'.trans_le (hc' _)⟩

/-- Two machines that agree still do after each has got a new object, with contents that are related, and the world
has been extended by the pair. -/
theorem agrees_extend (hm : W.Agrees m n) (hk : k ≠ .root) (hc : m.ChangesWithin ∅ m') (hc' : n.ChangesWithin ∅ n')
    (hi : m.count k < m'.count k) (hj : n.count k < n'.count k)
    (hf : k = .frame → ∃ g g', m'.frames[m.count k]? = some g ∧ n'.frames[n.count k]? = some g' ∧ W.Rel g g')
    (ha : k = .atom → W.Rel (m'.atomValue (m.count k)) (n'.atomValue (n.count k))) :
    (W.extend k (m.count k) (n.count k)).Agrees m' n' := by
  have le := le_extend hm hk
  refine ⟨bound_extend hm hk hc.count hc'.count hi hj, fun {e} he => ?_, fun {a} ha' => ?_⟩
  · rcases Set.mem_insert_iff.1 he with he | he
    · obtain ⟨rfl, rfl⟩ := Ref.mk.inj he
      obtain ⟨g, g', hg, hg', rel⟩ := hf rfl
      refine ⟨g, g', hg, by rw [extend_map]; exact hg', rel.mono le, fun o ho => ?_⟩
      have shared : ⟨.frame, o⟩ ∈ W.shared := rel.shared (List.mem_append_right _ (by simp [ho]))
      rw [extend_map, le.apply shared]
      exact hm.bound shared
    · obtain ⟨g, g', hg, hg', rel, outer⟩ := hm.frame he
      obtain ⟨lt, lt'⟩ := hm.bound he
      refine ⟨g, g', (hc.frame lt (Set.notMem_empty _)).trans hg, ?_, rel.mono le, fun o ho => ?_⟩
      · rw [le.apply he]
        exact (hc'.frame lt' (Set.notMem_empty _)).trans hg'
      · rw [le.apply he, le.apply (rel.shared (List.mem_append_right _ (by simp [ho])))]
        exact outer o ho
  · rcases Set.mem_insert_iff.1 ha' with ha' | ha'
    · obtain ⟨rfl, rfl⟩ := Ref.mk.inj ha'
      rw [extend_map]
      exact (ha rfl).mono le
    · obtain ⟨lt, lt'⟩ := hm.bound ha'
      rw [le.apply ha', hc.atomValue lt (Set.notMem_empty _), hc'.atomValue lt' (Set.notMem_empty _)]
      exact (hm.atom ha').mono le

end World

/-- An operation that adds one thing of a kind and gives its number. -/
structure Machine.Allocates (k : RefKind) (f : Machine → Nat × Machine) : Prop where
  number (m : Machine) : (f m).1 = m.count k
  count (m : Machine) : (f m).2.count k = m.count k + 1
  others (m : Machine) {k' : RefKind} (h : k' ≠ k) (hr : k' ≠ .root) : (f m).2.count k' = m.count k'
  changes (m : Machine) : m.ChangesWithin ∅ (f m).2
  printed (m : Machine) : (f m).2.printed = m.printed
  records (m : Machine) : (f m).2.records = m.records

namespace Machine

/-- An allocation makes room for its object. -/
theorem Allocates.count_lt {k : RefKind} {f : Machine → Nat × Machine} (h : Allocates k f) (m : Machine) :
    m.count k < (f m).2.count k := by
  rw [h.count]
  exact Nat.lt_succ_self _

/-- There is one new number. -/
theorem Allocates.eq_new {k : RefKind} {f : Machine → Nat × Machine} (h : Allocates k f) {m : Machine} {x : Ref}
    (hk : x.kind ≠ .root) (hge : m.count x.kind ≤ x.index) (hlt : x.index < (f m).2.count x.kind) :
    x = ⟨k, m.count k⟩ := by
  obtain ⟨k', i⟩ := x
  by_cases hk' : k' = k
  · subst hk'
    rw [h.count] at hlt
    exact congrArg (Ref.mk k') (Nat.le_antisymm (Nat.le_of_lt_succ hlt) hge)
  · rw [h.others m hk' hk] at hlt
    exact absurd hlt (Nat.not_lt.2 hge)

theorem allocates_addFrame (bs : Bindings) (outer : Option FrameId) :
    Allocates .frame fun m => m.addFrame bs outer where
  number _ := rfl
  count m := by simp [addFrame, count]
  others _ k' _ _ := by cases k' <;> first | contradiction | rfl
  changes m := by
    refine ⟨fun k => ?_, fun he _ => Array.getElem?_push_lt he |>.trans (Array.getElem?_eq_getElem he).symm,
      fun _ _ => rfl⟩
    cases k <;> simp [addFrame, count]
  printed _ := rfl
  records _ := rfl

theorem allocates_addAtom (v : Value) : Allocates .atom fun m => m.addAtom v where
  number _ := rfl
  count m := by simp [addAtom, count]
  others _ k' _ _ := by cases k' <;> first | contradiction | rfl
  changes m := by
    refine ⟨fun k => ?_, fun _ _ => rfl,
      fun ha _ => Array.getElem?_push_lt ha |>.trans (Array.getElem?_eq_getElem ha).symm⟩
    cases k <;> simp [addAtom, count]
  printed _ := rfl
  records _ := rfl

theorem allocates_newClosure : Allocates .closure newClosure where
  number _ := rfl
  count _ := rfl
  others _ k' _ _ := by cases k' <;> first | contradiction | rfl
  changes m := by
    refine ⟨fun k => ?_, fun _ _ => rfl, fun _ _ => rfl⟩
    cases k <;> simp [newClosure, count]
  printed _ := rfl
  records _ := rfl

end Machine

namespace Follows

open World (Related)

variable {o : Origin} {W : World} {k : RefKind} {f g : Machine → Nat × Machine}

/-- The case of every allocation but that of a root: both runs get a new object, and the world is extended by the pair
of their names. -/
theorem allocate (hk : k ≠ .root) (hf : Machine.Allocates k f) (hg : Machine.Allocates k g)
    (hframe : ∀ m n, k = .frame →
      ∃ g₁ g₂, (f m).2.frames[m.count k]? = some g₁ ∧ (g n).2.frames[n.count k]? = some g₂ ∧ W.Rel g₁ g₂)
    (hatom : ∀ m n, k = .atom → W.Rel ((f m).2.atomValue (m.count k)) ((g n).2.atomValue (n.count k))) :
    Follows o (fun W => W.Names k) W (Run.change f) (Run.change g) := by
  intro m n m' r hl hr _
  have hm := hl.agrees
  cases hr
  refine ⟨W.extend k (m.count k) (n.count k), _, _, rfl,
    hl.go ?_ ⟨⟨World.le_extend hm hk, fun {x} hx => ?_, ?_, ?_, ?_⟩, fun hk' hge hlt => ?_, fun hk' hge hlt => ?_⟩,
    World.le_extend hm hk, ?_⟩
  · exact World.agrees_extend hm hk (hf.changes m) (hg.changes n) (hf.count_lt m) (hg.count_lt n) (hframe m n)
      (hatom m n)
  · rcases Set.mem_insert_iff.1 hx with rfl | hx
    · exact .inr ⟨Nat.le_refl _, Nat.le_of_eq (World.extend_map W k _ _).symm⟩
    · exact .inl hx
  · exact (hf.changes m).mono (Set.empty_subset _)
  · exact (hg.changes n).mono (Set.empty_subset _)
  · exact .of_eq (hf.printed m) (hg.printed n) (hf.records m) (hg.records n)
  · rw [hf.eq_new hk' hge hlt]
    exact (World.extend_names W k _ _).mem
  · rw [hg.eq_new hk' hge hlt]
    exact (World.extend_names W k _ _).mem_image
  · refine .ok ?_
    rw [hf.number, hg.number]
    exact World.extend_names W k _ _

/-- A new frame in each run: the frames go by each other's name from here on. -/
theorem addFrame {bs bs' : Bindings} {outer outer' : Option FrameId} (h : W.Rel (Frame.mk bs outer) ⟨bs', outer'⟩) :
    Follows o (fun W => W.Names .frame) W (Run.change fun m => m.addFrame bs outer)
      (Run.change fun m => m.addFrame bs' outer') := by
  refine allocate (by decide) (Machine.allocates_addFrame _ _) (Machine.allocates_addFrame _ _)
    (fun m n _ => ⟨_, _, ?_, ?_, h⟩) fun _ _ hk => nomatch hk
  · simp [Machine.addFrame, Machine.count]
  · simp [Machine.addFrame, Machine.count]

/-- A new atom in each run: the atoms go by each other's name from here on. -/
theorem addAtom {v v' : Value} (h : W.Rel v v') :
    Follows o (fun W => W.Names .atom) W (Run.change fun m => m.addAtom v) (Run.change fun m => m.addAtom v') := by
  refine allocate (by decide) (Machine.allocates_addAtom _) (Machine.allocates_addAtom _)
    (fun _ _ hk => nomatch hk) fun m n _ => ?_
  simpa [Machine.addAtom, Machine.atomValue, Machine.count] using h

/-- A new closure in each run; the tables have nothing to say of it but that it is there. -/
theorem newClosure :
    Follows o (fun W => W.Names .closure) W (Run.change Machine.newClosure) (Run.change Machine.newClosure) :=
  allocate (by decide) Machine.allocates_newClosure Machine.allocates_newClosure (fun _ _ hk => nomatch hk)
    fun _ _ hk => nomatch hk

/-! ### Changes in place -/

/-- The case of every operation that allocates nothing: it has to keep the agreement, to touch shared objects only and
to print and record the same in both runs. -/
theorem modify {f g : Machine → Machine} (hm : ∀ {m n : Machine}, W.Agrees m n → W.Agrees (f m) (g n))
    (hf : ∀ m k, (f m).count k = m.count k) (hg : ∀ n k, (g n).count k = n.count k)
    (hc : ∀ m : Machine, m.ChangesWithin W.shared (f m)) (hc' : ∀ n : Machine, n.ChangesWithin W.image (g n))
    (ho : ∀ m n : Machine, Machine.SameOutput m (f m) n (g n)) :
    Follows o Related W (Run.modify f) (Run.modify g) := by
  intro m n m' r hl hr _
  cases hr
  have goes : W.Continues m n W (f m) (g n) := .of_count ⟨.refl W, .inl, hc m, hc' n, ho m n⟩ (hf m) (hg n)
  exact ⟨W, _, _, rfl, hl.go (hm hl.agrees) goes, .refl W, .ok (.of_nil rfl rfl)⟩

/-- A binding of related values in related frames. -/
theorem bindName {e e' : FrameId} (he : W.Names .frame e e') (name : String) {v v' : Value} (hv : W.Rel v v') :
    Follows o Related W (Run.modify fun m => m.bind e name v) (Run.modify fun m => m.bind e' name v') := by
  refine modify (fun {m n} h => ?_) (fun m => m.count_bind e name v) (fun n => n.count_bind e' name v')
    (.bind he.mem · name v) (.bind he.mem_image · name v') fun m n => .of_eq rfl rfl rfl rfl
  refine ⟨fun {x} hx => ?_, fun {e₁} h₁ => ?_, h.atom⟩
  · rw [Machine.count_bind, Machine.count_bind]
    exact h.bound hx
  · obtain ⟨g, g', hg, hg', rel, outer⟩ := h.frame h₁
    have same : W.map .frame e = W.map .frame e₁ ↔ e = e₁ := (W.map .frame).apply_eq_iff_eq
    simp only [Machine.bind, Array.getElem?_modify, he.eq, same, hg, hg']
    split
    · have bound : W.Rel (g.bindings.insert name v) (g'.bindings.insert name v') :=
        (hv.pair rel.bindings).map (g := fun p : Value × Bindings => Bindings.insert name p.1 p.2)
          fun f p => Bindings.insert_rename f name p.1 p.2
      refine ⟨_, _, rfl, rfl, ⟨?_, fun {x} hx => ?_⟩, outer⟩
      · simp only [bound.eq, rel.outer]
        rfl
      · rcases List.mem_append.1 hx with hx | hx
        · exact bound.shared hx
        · exact rel.shared (List.mem_append_right _ hx)
    · exact ⟨g, g', rfl, rfl, rel, outer⟩

/-- A write of related values to related atoms. -/
theorem setAtom {a a' : AtomId} (ha : W.Names .atom a a') {v v' : Value} (hv : W.Rel v v') :
    Follows o Related W (Run.modify fun m => m.setAtom a v) (Run.modify fun m => m.setAtom a' v') := by
  refine modify (fun {m n} h => ?_) (fun m => m.count_setAtom a v) (fun n => n.count_setAtom a' v')
    (.setAtom ha.mem · v) (.setAtom ha.mem_image · v') fun m n => .of_eq rfl rfl rfl rfl
  refine ⟨fun {x} hx => ?_, h.frame, fun {b} hb => ?_⟩
  · rw [Machine.count_setAtom, Machine.count_setAtom]
    exact h.bound hx
  · obtain ⟨lt, lt'⟩ := h.bound hb
    have same : W.map .atom a = W.map .atom b ↔ a = b := (W.map .atom).apply_eq_iff_eq
    have values := h.atom hb
    simp only [Machine.atomValue, Array.getD_eq_getD_getElem?] at values ⊢
    simp only [Machine.setAtom, Array.getElem?_setIfInBounds, ha.eq, same]
    by_cases hab : a = b
    · subst hab
      have lt : a < m.atoms.size := lt
      have lt' : W.map .atom a < n.atoms.size := lt'
      simpa only [if_true, if_pos lt, if_pos lt', Option.getD_some] using hv
    · simpa only [if_neg hab] using values

/-! ### Output -/

theorem printLine (line : String) :
    Follows o Related W (Run.modify fun m => m.printLine line) (Run.modify fun m => m.printLine line) := by
  refine modify (fun h => ⟨h.bound, h.frame, h.atom⟩) (fun _ _ => rfl) (fun _ _ => rfl) (fun _ => .of_eq rfl rfl rfl)
    (fun _ => .of_eq rfl rfl rfl) fun m n =>
      ⟨⟨line ++ "\n", ?_, ?_⟩, ⟨#[], by simp [Machine.printLine], by simp [Machine.printLine]⟩⟩
  · exact String.append_assoc
  · exact String.append_assoc

theorem addRecord (level : Level) (text : String) :
    Follows o Related W (Run.modify fun m => m.addRecord level text) (Run.modify fun m => m.addRecord level text) :=
  modify (fun h => ⟨h.bound, h.frame, h.atom⟩) (fun _ _ => rfl) (fun _ _ => rfl) (fun _ => .of_eq rfl rfl rfl)
    (fun _ => .of_eq rfl rfl rfl) fun m n =>
      ⟨⟨"", by simp [Machine.addRecord], by simp [Machine.addRecord]⟩, ⟨#[⟨level, text⟩], rfl, rfl⟩⟩

/-- A text that is found out alike on both sides. -/
theorem gets? {f g : Machine → Option String} (h : ∀ {m n : Machine}, W.Agrees m n → g n = f m) :
    Follows o Related W (Run.gets? f) (Run.gets? g) := by
  intro m n m' r hl hr _
  unfold Run.gets? at hr ⊢
  rw [h hl.agrees]
  split at hr
  · cases hr
  · cases hr
    exact ⟨W, _, n, rfl, hl, .refl W, .ok (.of_nil rfl rfl)⟩

variable {ctx ctx' : Context}

/-- The same message at the same level is recorded by both runs or by neither. -/
theorem record (hc : ctx.Akin ctx') (level : Level) {message message' : Message}
    (h : W.SameMessage message message') :
    Follows o Related W (Run.record ctx level message) (Run.record ctx' level message') := by
  have wanted : ctx'.records level = ctx.records level := by rw [Context.records, hc.recorded, Context.records]
  unfold Run.record
  rw [wanted]
  split
  · refine (gets? fun hm => h _ _ hm).bind fun _ t t' ht => ?_
    obtain rfl := ht.eq
    exact addRecord level _
  · exact pure (.of_nil rfl rfl)

theorem recordValue (hc : ctx.Akin ctx') (level : Level) (what : String) {v v' : Value} (h : W.Rel v v') :
    Follows o Related W (Run.recordValue ctx level what v) (Run.recordValue ctx' level what v') :=
  record hc level (World.sameMessage_value what h)

/-- Related arguments are joined to the same text. -/
theorem joined (mode : Mode) (between : String) {args args' : List Value} (h : W.Rel args args') :
    Follows o Related W (Run.joined mode between args) (Run.joined mode between args') :=
  gets? fun hm => by rw [World.mapM_eq (fun hv => hm.text? mode hv) h]

end Follows

end MiniLisp

import MiniLisp.Proofs.Builtins
import MiniLisp.Proofs.Points

/-!
# Frames only grow

The frames of a machine can be changed by two operations only: a frame is added, or a name is bound in one of them. So
a frame keeps its place below other frames and the names that it binds, and a name that resolves goes on to resolve.

* `Machine.Grows`: no frame is lost, and none loses anything.
* `Machine.ChangesOnly`: the same, and only the given frames change at all.
* `Machine.Grows.lookup`: a name that resolves goes on to resolve.
-/

namespace MiniLisp

/-- A frame in the same place that binds no fewer names. -/
structure Frame.Grows (f f' : Frame) : Prop where
  outer : f'.outer = f.outer
  names {name : String} (h : (f.bindings.find? name).isSome = true) : (f'.bindings.find? name).isSome = true

namespace Frame.Grows

protected theorem refl (f : Frame) : f.Grows f := ⟨rfl, fun h => h⟩

/-- A frame that grows twice has grown. -/
theorem trans {f g k : Frame} (h : f.Grows g) (h' : g.Grows k) : f.Grows k :=
  ⟨h'.outer.trans h.outer, fun hn => h'.names (h.names hn)⟩

/-- A binding makes a frame grow; an earlier one of that name is replaced, not lost. -/
theorem insert (f : Frame) (name : String) (v : Value) : f.Grows { f with bindings := f.bindings.insert name v } := by
  refine ⟨rfl, fun {name'} h => ?_⟩
  rw [Bindings.find?_insert]
  split
  · rfl
  · exact h

end Frame.Grows

namespace Machine

/-- No frame is lost, and every frame grows. -/
def Grows (m m' : Machine) : Prop :=
  ∀ (e : FrameId) (f : Frame), m.frames[e]? = some f → ∃ f', m'.frames[e]? = some f' ∧ f.Grows f'

/-- Every frame grows, and those that change are among the given ones. -/
structure ChangesOnly (es : List FrameId) (m m' : Machine) : Prop where
  grows : m.Grows m'
  frame {e : FrameId} {f : Frame} (h : m.frames[e]? = some f) (he : e ∉ es) : m'.frames[e]? = some f

variable {m m' n : Machine} {es es' : List FrameId}

/-! ## Lookups near a root -/

/-- In a frame with nothing around it, looking up is finding a binding. -/
theorem lookup_root {e : FrameId} {bs : Bindings} (h : m.frames[e]? = some ⟨bs, none⟩) (name : String) :
    m.lookup e name = bs.find? name := by
  simp only [lookup, lookupWithin, h]
  cases bs.find? name <;> rfl

/-- A frame right below a root. -/
theorem lookup_child {e root : FrameId} {bs rs : Bindings} (he : m.frames[e]? = some ⟨bs, some root⟩)
    (hr : m.frames[root]? = some ⟨rs, none⟩) (hlt : root < e) (name : String) :
    m.lookup e name = (bs.find? name).or (rs.find? name) := by
  cases e with
  | zero => exact absurd hlt (Nat.not_lt_zero root)
  | succ e =>
    simp only [lookup, lookupWithin, he, hr]
    cases bs.find? name with
    | some v => rfl
    | none => cases rs.find? name <;> rfl

namespace Grows

protected theorem refl (m : Machine) : m.Grows m := fun _ f h => ⟨f, h, .refl f⟩

/-- A machine that grows twice has grown. -/
theorem trans (h : m.Grows n) (h' : n.Grows m') : m.Grows m' := by
  intro e f hf
  obtain ⟨g, hg, grown⟩ := h e f hf
  obtain ⟨k, hk, grown'⟩ := h' e g hg
  exact ⟨k, hk, grown.trans grown'⟩

/-- A name that resolves in a frame goes on to resolve there. -/
theorem lookup (h : m.Grows m') (e : FrameId) (name : String) (hn : (m.lookup e name).isSome = true) :
    (m'.lookup e name).isSome = true := by
  have within : ∀ steps e, (m.lookupWithin name steps e).isSome = true →
      (m'.lookupWithin name steps e).isSome = true := by
    intro steps
    induction steps with
    | zero => intro e hn; cases hn
    | succ steps ih =>
      intro e hn
      unfold lookupWithin at hn ⊢
      cases hf : m.frames[e]? with
      | none => rw [hf] at hn; cases hn
      | some f =>
        obtain ⟨f', hf', grown⟩ := h e f hf
        simp only [hf, hf'] at hn ⊢
        cases hb' : f'.bindings.find? name with
        | some v => rfl
        | none =>
          have hb : f.bindings.find? name = none := by
            cases hb : f.bindings.find? name with
            | none => rfl
            | some v =>
              have bound : (f.bindings.find? name).isSome = true := by rw [hb]; rfl
              have kept := grown.names bound
              rw [hb'] at kept
              cases kept
          simp only [hb, grown.outer] at hn ⊢
          cases ho : f.outer with
          | none => rw [ho] at hn; cases hn
          | some o =>
            rw [ho] at hn
            exact ih o hn
  exact within (e + 1) e hn

end Grows

namespace ChangesOnly

theorem of_frames_eq (h : m'.frames = m.frames) (es : List FrameId) : m.ChangesOnly es m' :=
  ⟨fun _ f hf => ⟨f, by rw [h, hf], .refl f⟩, fun hf _ => by rw [h, hf]⟩

protected theorem refl (m : Machine) (es : List FrameId) : m.ChangesOnly es m := of_frames_eq rfl es

/-- Changes to the same frames, one after the other. -/
theorem trans (h : m.ChangesOnly es n) (h' : n.ChangesOnly es m') : m.ChangesOnly es m' :=
  ⟨h.grows.trans h'.grows, fun hf he => h'.frame (h.frame hf he) he⟩

theorem mono (h : m.ChangesOnly es m') (hs : es ⊆ es') : m.ChangesOnly es' m' :=
  ⟨h.grows, fun hf he => h.frame hf fun hes => he (hs hes)⟩

/-- A change of a frame that was not there before is none. -/
theorem of_new {e : FrameId} (h : m.ChangesOnly (e :: es) m') (he : m.frames.size ≤ e) : m.ChangesOnly es m' := by
  refine ⟨h.grows, fun {e' f} hf hes => h.frame hf fun hmem => ?_⟩
  rcases List.mem_cons.1 hmem with rfl | hmem
  · have bound := (Array.getElem?_eq_some_iff.1 hf).1
    omega
  · exact hes hmem

/-- A new frame changes none of those that were there. -/
theorem addFrame (m : Machine) (bs : Bindings) (outer : Option FrameId) (es : List FrameId) :
    m.ChangesOnly es (m.addFrame bs outer).2 := by
  have same {e : FrameId} {f : Frame} (hf : m.frames[e]? = some f) : (m.addFrame bs outer).2.frames[e]? = some f := by
    have bound := (Array.getElem?_eq_some_iff.1 hf).1
    rw [Machine.addFrame, Array.getElem?_push_lt bound, ← Array.getElem?_eq_getElem bound, hf]
  exact ⟨fun _ f hf => ⟨f, same hf, .refl f⟩, fun hf _ => same hf⟩

theorem newClosure (m : Machine) (es : List FrameId) : m.ChangesOnly es m.newClosure.2 := by
  apply of_frames_eq
  rfl

/-- A binding changes its own frame. -/
theorem bind (m : Machine) (e : FrameId) (name : String) (v : Value) (es : List FrameId) :
    m.ChangesOnly (e :: es) (m.bind e name v) := by
  refine ⟨fun e' f hf => ?_, fun {e' f} hf he => ?_⟩
  · rw [Machine.bind, Array.getElem?_modify, hf]
    by_cases h : e = e'
    · subst h
      exact ⟨_, by rw [if_pos rfl]; rfl, .insert f name v⟩
    · exact ⟨f, by rw [if_neg h], .refl f⟩
  · have other : e ≠ e' := by
      rintro rfl
      exact he List.mem_cons_self
    rw [Machine.bind, Array.getElem?_modify, if_neg other, hf]

end ChangesOnly

/-! ## Lookups in nested frames -/

/-- Outwards of a frame are older ones. -/
def Nested (m : Machine) : Prop :=
  ∀ (e o : FrameId) (f : Frame), m.frames[e]? = some f → f.outer = some o → o < e

/-- A name is looked for in a frame and then in the one around it. -/
theorem lookupWithin_succ {e : FrameId} {f : Frame} (h : m.frames[e]? = some f) (name : String) (steps : Nat) :
    m.lookupWithin name (steps + 1) e = (f.bindings.find? name).or (f.outer.bind (m.lookupWithin name steps)) := by
  obtain ⟨bs, outer⟩ := f
  simp only [lookupWithin, h]
  cases bs.find? name <;> cases outer <;> rfl

theorem lookupWithin_missing {e : FrameId} (h : m.frames[e]? = none) (name : String) (steps : Nat) :
    m.lookupWithin name steps e = none := by
  cases steps with
  | zero => rfl
  | succ steps => simp only [lookupWithin, h]

namespace Nested

variable {e : FrameId} {name : String}

/-- A search that may go on longer finds the same, for there are no more frames outwards. -/
theorem lookupWithin_eq (h : m.Nested) {steps : Nat} (he : e < steps) :
    m.lookupWithin name steps e = m.lookup e name := by
  have within : ∀ steps steps' e, e < steps → e < steps' →
      m.lookupWithin name steps e = m.lookupWithin name steps' e := by
    intro steps
    induction steps with
    | zero => intro _ e he; exact absurd he (Nat.not_lt_zero e)
    | succ steps ih =>
      intro steps' e he he'
      obtain ⟨steps', rfl⟩ := Nat.exists_eq_add_one_of_ne_zero (Nat.ne_zero_of_lt he')
      cases hf : m.frames[e]? with
      | none => rw [lookupWithin_missing hf, lookupWithin_missing hf]
      | some f =>
        rw [lookupWithin_succ hf, lookupWithin_succ hf]
        refine congrArg _ (Option.bind_congr fun o ho => ?_)
        have lt := h _ o f hf ho
        exact ih steps' o (Nat.lt_of_lt_of_le lt (Nat.le_of_lt_succ he)) (Nat.lt_of_lt_of_le lt (Nat.le_of_lt_succ he'))
  exact within steps (e + 1) e he (Nat.lt_succ_self e)

/-- A name means what the frame binds it to, or else what it means outwards. -/
theorem lookup_eq (h : m.Nested) {bs : Bindings} {outer : Option FrameId} (he : m.frames[e]? = some ⟨bs, outer⟩) :
    m.lookup e name = (bs.find? name).or (outer.bind fun o => m.lookup o name) := by
  rw [lookup, lookupWithin_succ he]
  exact congrArg _ (Option.bind_congr fun o ho => h.lookupWithin_eq (h e o _ he ho))

/-- A new frame inside an old one leaves the machine nested. -/
theorem addFrame (h : m.Nested) (bs : Bindings) {outer : Option FrameId}
    (ho : ∀ o, outer = some o → o < m.frames.size) : (m.addFrame bs outer).2.Nested := by
  intro e o f hf hfo
  rw [Machine.addFrame, Array.getElem?_push] at hf
  split at hf
  · next heq =>
    cases hf
    exact heq ▸ ho o hfo
  · exact h e o f hf hfo

/-- A binding leaves the links between frames alone. -/
theorem bind (h : m.Nested) (e : FrameId) (name : String) (v : Value) : (m.bind e name v).Nested := by
  intro e' o f hf ho
  rw [Machine.bind, Array.getElem?_modify] at hf
  cases hg : m.frames[e']? with
  | none =>
    rw [hg] at hf
    split at hf <;> cases hf
  | some g =>
    have outer : g.outer = some o := by
      rw [hg] at hf
      split at hf <;> cases hf <;> exact ho
    exact h e' o g hg outer

/-- A new frame leaves the meaning of names in the others as it was. -/
theorem lookup_addFrame (h : m.Nested) (bs : Bindings) (outer : Option FrameId) (he : e < m.frames.size) :
    (m.addFrame bs outer).2.lookup e name = m.lookup e name := by
  have within : ∀ steps e, e < m.frames.size →
      (m.addFrame bs outer).2.lookupWithin name steps e = m.lookupWithin name steps e := by
    intro steps
    induction steps with
    | zero => intro e _; rfl
    | succ steps ih =>
      intro e he
      have same : (m.addFrame bs outer).2.frames[e]? = m.frames[e]? := by
        rw [Machine.addFrame, Array.getElem?_push, if_neg (Nat.ne_of_lt he)]
      cases hf : m.frames[e]? with
      | none => rw [lookupWithin_missing hf, lookupWithin_missing (same.trans hf)]
      | some f =>
        rw [lookupWithin_succ hf, lookupWithin_succ (same.trans hf)]
        exact congrArg _ (Option.bind_congr fun o ho => ih o (Nat.lt_trans (h _ o f hf ho) he))
  exact within (e + 1) e he

/-- In a new frame names mean what it binds them to, and else what they mean outwards. -/
theorem lookup_new (h : m.Nested) (bs : Bindings) {o : FrameId} (ho : o < m.frames.size) :
    (m.addFrame bs (some o)).2.lookup m.frames.size name = (bs.find? name).or (m.lookup o name) := by
  have nested : (m.addFrame bs (some o)).2.Nested := h.addFrame bs fun o' ho' => Option.some.inj ho' ▸ ho
  rw [nested.lookup_eq Array.getElem?_push_size, Option.bind_some, h.lookup_addFrame bs (some o) ho]

end Nested

end Machine

/-! ## Runs that leave frames alone -/

/-- An order of machines that all operations but those on frames and closures go along with. -/
structure OffFrames (R : Machine → Machine → Prop) : Prop where
  refl (m : Machine) : R m m
  trans {m n k : Machine} (h : R m n) (h' : R n k) : R m k
  addRecord (m : Machine) (level : Level) (message : String) : R m (m.addRecord level message)
  printLine (m : Machine) (line : String) : R m (m.printLine line)
  addAtom (m : Machine) (v : Value) : R m (m.addAtom v).2
  setAtom (m : Machine) (a : AtomId) (v : Value) : R m (m.setAtom a v)

namespace OffFrames

/-- A run that goes along with an order. -/
def Along (R : Machine → Machine → Prop) {α : Type} (x : Run α) : Prop := ∀ m r, x m = some r → R m r.2

variable {R : Machine → Machine → Prop} {α β : Type}

theorem ofExcept (o : OffFrames R) (x : Except EvalError α) : Along R (Run.ofExcept x) := by
  intro m r hr
  cases hr
  exact o.refl m

theorem gets? (o : OffFrames R) (f : Machine → Option α) : Along R (Run.gets? f) := by
  intro m r hr
  obtain ⟨a, -, rfl⟩ := Run.gets?_eq_some hr
  exact o.refl m

/-- A run in two parts goes along with an order when both parts do. -/
theorem bind (o : OffFrames R) {x : Run α} {f : α → Run β} (h : Along R x) (hf : ∀ a, Along R (f a)) :
    Along R (Run.bind x f) := by
  intro m r hr
  rcases Run.bind_eq_some hr with ⟨fault, m', hx, rfl⟩ | ⟨a, m₁, hx, hr⟩
  · exact h m _ hx
  · exact o.trans (h m _ hx) (hf a m₁ r hr)

theorem observe (o : OffFrames R) {x : Run α} {f : α → Run Unit} {g : EvalError → Run Unit} (h : Along R x)
    (hf : ∀ a, Along R (f a)) (hg : ∀ fault, Along R (g fault)) : Along R (Run.observe x f g) := by
  intro m r hr
  rcases Run.observe_eq_some hr with ⟨fault, m₁, hx, hr⟩ | ⟨a, m₁, hx, hr⟩
  · exact o.trans (h m _ hx) (o.bind (hg fault) (fun _ => o.ofExcept (.error fault)) m₁ r hr)
  · exact o.trans (h m _ hx) (o.bind (hf a) (fun _ => o.ofExcept (.ok a)) m₁ r hr)

theorem record (o : OffFrames R) (ctx : Context) (level : Level) (message : Message) :
    Along R (Run.record ctx level message) := by
  unfold Run.record
  split
  · exact o.bind (o.gets? _) fun t m r hr => by cases hr; exact o.addRecord m level t
  · exact o.ofExcept (.ok ())

/-- An order of this kind goes along with all that builtins are made of. -/
theorem kept (o : OffFrames R) (ctx : Context) : Kept (fun _ x => Along R x) ctx where
  ofExcept := o.ofExcept
  bind := o.bind
  observe := o.observe
  record := o.record ctx
  joined _ _ _ := o.gets? _
  printLine line m r hr := by cases hr; exact o.printLine m line
  addAtom v m r hr := by cases hr; exact o.addAtom m v
  atomValue _ m r hr := by cases hr; exact o.refl m
  setAtom a v m r hr := by cases hr; exact o.setAtom m a v

/-- Frames are left as they are. -/
theorem frames : OffFrames fun m m' => m'.frames = m.frames where
  refl _ := rfl
  trans h h' := h'.trans h
  addRecord _ _ _ := rfl
  printLine _ _ := rfl
  addAtom _ _ := rfl
  setAtom _ _ _ := rfl

/-- Atoms are only ever added. -/
theorem atoms : OffFrames fun m m' => m.atoms.size ≤ m'.atoms.size where
  refl _ := Nat.le_refl _
  trans := Nat.le_trans
  addRecord _ _ _ := Nat.le_refl _
  printLine _ _ := Nat.le_refl _
  addAtom m v := by simp [Machine.addAtom]
  setAtom m a v := by simp [Machine.setAtom]

end OffFrames

/-! ## Runs go along with growth -/

/-- Growing is carried through every operation of the machine. -/
theorem onward_grows : Onward Machine.Grows where
  refl := .refl
  trans := .trans
  addFrame m bs outer := (Machine.ChangesOnly.addFrame m bs outer []).grows
  newClosure m := (Machine.ChangesOnly.newClosure m []).grows
  bindName m e name v := (Machine.ChangesOnly.bind m e name v []).grows
  record h := (Machine.ChangesOnly.of_frames_eq (OffFrames.frames.record _ _ _ _ _ h) []).grows
  builtin h := (Machine.ChangesOnly.of_frames_eq ((OffFrames.frames.kept _).builtin _ _ _ _ h) []).grows

/-- So is that no atom is lost. -/
theorem onward_atoms : Onward fun m m' => m.atoms.size ≤ m'.atoms.size where
  refl := OffFrames.atoms.refl
  trans := OffFrames.atoms.trans
  addFrame _ _ _ := Nat.le_refl _
  newClosure _ := Nat.le_refl _
  bindName _ _ _ _ := Nat.le_refl _
  record h := OffFrames.atoms.record _ _ _ _ _ h
  builtin h := (OffFrames.atoms.kept _).builtin _ _ _ _ h

end MiniLisp

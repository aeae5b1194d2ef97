import Mathlib
import MiniLisp.Proofs.Gone

/-!
# Evaluation beside other things

A machine has come of another one by additions to it, which need not be in reach of what is evaluated next; more may be
held as well, but nothing leads to what was gone (`Beside`). An evaluation that leaves in the end what was there as it
was goes on such a machine as on the first one (`Beside.evaluate`): roots that are there stay there, and one that is
gone is not brought back (`guarded_beside`). The machine it leaves has come of the first one in the same way again.

* `Machine.taken`, `World.present`: what is there, and what of it is not gone.
* `Beside`: a machine and a context to go on with.
-/

namespace MiniLisp

open Refers (rename refs)

/-! ## What is there -/

theorem Ref.Owning.kind_ne_root {x : Ref} (hx : x.Owning) : x.kind ≠ .root := by
  rcases hx with h | h <;> rw [h] <;> decide

namespace Machine

/-- The numbers that are taken. -/
def taken (m : Machine) : Set Ref := {x | x.index < m.count x.kind}

variable {m n : Machine} {held : Holds} {x y : Ref}

theorem has_iff_mem_taken (hx : x.Owning) : m.Has x ↔ x ∈ m.taken := by
  obtain ⟨k, i⟩ := x
  rcases hx with rfl | rfl <;> exact Iff.rfl

theorem mem_taken_of_gone (h : x ∈ m.gone held) : x ∈ m.taken := (has_iff_mem_taken h.1).1 h.2.1

theorem Leads.mem_taken (h : m.Leads y x) : y ∈ m.taken := (has_iff_mem_taken h.has.1).1 h.has.2

theorem ChangesWithin.taken_subset {S : Set Ref} (h : m.ChangesWithin S n) : m.taken ⊆ n.taken :=
  fun _ hx => Nat.lt_of_lt_of_le hx (h.count _)

theorem Sound.nested (h : m.Sound m.taken) : m.Nested := by
  intro e o f hf ho
  have there : ⟨.frame, e⟩ ∈ m.taken := (Array.getElem?_eq_some_iff.1 hf).1
  obtain ⟨g, -, hg, -, -, outer⟩ := h.frame there
  rw [hf] at hg
  cases hg
  exact (outer o ho).1

/-- What is there and not gone leads to nothing that is gone. -/
theorem not_gone_of_leads (hy : y ∉ m.gone held) (h : m.Leads y x) : x ∉ m.gone held := by
  intro hx
  have alive : (m.survivors held).Has y := by
    by_contra hn
    exact hy ⟨h.has.1, h.has.2, hn⟩
  exact hx.2.2 ((has_survivors hx.1).2 ⟨hx.2.1, (ownedBy_iff hx.1).2 (.inr ⟨y, alive, h⟩)⟩)

theorem not_gone_of_held (h : held.owned.Has x) : x ∉ m.gone held :=
  fun hx => hx.2.2 ((has_survivors hx.1).2 ⟨hx.2.1, (ownedBy_iff hx.1).2 (.inl h)⟩)

end Machine

namespace World

variable {W : World} {m n : Machine} {held : Holds} {x y : Ref}

/-- The world of what is there and not gone, under its own names. -/
def present (m : Machine) (held : Holds) : World := ⟨1, m.taken \ m.gone held⟩

/-- Less may be shared if it leads nowhere else. -/
theorem Agrees.restrict (h : W.Agrees m n) {S : Set Ref} (hS : S ⊆ W.shared)
    (hl : ∀ {x y : Ref}, y ∈ S → m.Leads y x → x ∈ S) : (World.mk W.map S).Agrees m n where
  bound hx := h.bound (hS hx)
  frame he := by
    obtain ⟨g, g', hg, hg', rel, outer⟩ := h.frame (hS he)
    exact ⟨g, g', hg, hg', ⟨rel.eq, fun hx => hl he ⟨g, hg, hx⟩⟩, outer⟩
  atom ha := ⟨(h.atom (hS ha)).eq, fun hx => hl ha hx⟩

/-- What agrees with something that has not changed has not changed. -/
theorem Agrees.frame_eq (h : W.Agrees m n) {W' : World} {m' n' : Machine} (h' : W'.Agrees m' n') (le : W.LE W')
    {e : FrameId} (he : ⟨.frame, e⟩ ∈ W.shared) (hm : m'.frames[e]? = m.frames[e]?) :
    n'.frames[W.map .frame e]? = n.frames[W.map .frame e]? := by
  obtain ⟨g, g', hg, hg', rel, -⟩ := h.frame he
  obtain ⟨f, f', hf, hf', rel', -⟩ := h'.frame (le.shared he)
  rw [hm, hg] at hf
  cases hf
  rw [le.apply he] at hf'
  rw [hf', hg', rel'.eq, rel.eq]
  exact congrArg some (Refers.rename_congr fun x hx => le.map (rel.shared hx))

theorem Agrees.atom_eq (h : W.Agrees m n) {W' : World} {m' n' : Machine} (h' : W'.Agrees m' n') (le : W.LE W')
    {a : AtomId} (ha : ⟨.atom, a⟩ ∈ W.shared) (hm : m'.atoms[a]? = m.atoms[a]?) :
    n'.atoms[W.map .atom a]? = n.atoms[W.map .atom a]? := by
  have get {k : Machine} {b : AtomId} (hb : b < k.atoms.size) : k.atoms[b]? = some (k.atomValue b) := by
    rw [Machine.atomValue, Array.getD_eq_getD_getElem?, Array.getElem?_eq_getElem hb, Option.getD_some]
  have same : m'.atomValue a = m.atomValue a := by
    simp only [Machine.atomValue, Array.getD_eq_getD_getElem?, hm]
  have rel := h.atom ha
  have rel' := h'.atom (le.shared ha)
  have bound' := (h'.bound (le.shared ha)).2
  rw [le.apply ha] at rel' bound'
  rw [get bound', get (h.bound ha).2, rel'.eq, rel.eq, same]
  exact congrArg some (Refers.rename_congr fun x hx => le.map (rel.shared hx))

/-- A second machine on which nothing has changed agrees as well. -/
theorem Agrees.of_changes_right (h : W.Agrees m n) {n' : Machine} (hc : n.ChangesWithin ∅ n') : W.Agrees m n' := by
  have back := (h.symm.of_changes hc (Set.empty_disjoint _)).symm
  rwa [symm_symm] at back

end World

/-! ## Machines with additions -/

/-- A machine that has come of the first one by additions, and a context that holds no less. Nothing that was gone on
the first machine is held or led to from elsewhere. -/
structure Beside (m : Machine) (ctx : Context) (n : Machine) (c : Context) : Prop where
  changes : m.ChangesWithin ∅ n
  nested : n.Nested
  spares : n.Spares c.held (m.gone ctx.held)
  akin : ctx.Akin c
  held {x : Ref} (h : ctx.held.owned.Has x) : c.held.owned.Has x
  there {x : Ref} (h : c.held.owned.Has x) : x ∈ n.taken

/-- Contexts in which the second run holds what the first one holds, and otherwise what is there and was not gone. -/
structure World.HoldAlike (m : Machine) (ctx : Context) (n : Machine) (W : World) (c c' : Context) : Prop where
  akin : c.Akin c'
  start {x : Ref} (h : ctx.held.owned.Has x) : c.held.owned.Has x
  shared {x : Ref} (h : c.held.owned.Has x) : x ∈ W.shared
  held {x : Ref} (h : c.held.owned.Has x) : c'.held.owned.Has (x.rename W.map)
  others {y : Ref} (h : c'.held.owned.Has y) : y ∈ W.image ∨ y ∈ n.taken ∧ y ∉ m.gone ctx.held

namespace World.HoldAlike

variable {m n : Machine} {ctx c c' : Context} {W W' : World}

theorem mono (h : W.HoldAlike m ctx n c c') (le : W.LE W') : W'.HoldAlike m ctx n c c' where
  akin := h.akin
  start := h.start
  shared hx := le.shared (h.shared hx)
  held hx := by
    rw [le.map (h.shared hx)]
    exact h.held hx
  others hy := (h.others hy).imp_left fun hi => le.image_subset hi

theorem holdFrame (h : W.HoldAlike m ctx n c c') {e e' : FrameId} (he : W.Names .frame e e') :
    W.HoldAlike m ctx n (c.holdFrame e) (c'.holdFrame e') where
  akin := ⟨h.akin.files, h.akin.recorded⟩
  start hx := (Holds.has_frame e).2 (.inr (h.start hx))
  shared hx := by
    rcases (Holds.has_frame e).1 hx with rfl | hx
    · exact he.mem
    · exact h.shared hx
  held hx := by
    rcases (Holds.has_frame e).1 hx with rfl | hx
    · exact (Holds.has_frame e').2 (.inl (congrArg (Ref.mk .frame) he.eq.symm))
    · exact (Holds.has_frame e').2 (.inr (h.held hx))
  others hy := by
    rcases (Holds.has_frame e').1 hy with rfl | hy
    · exact .inl he.mem_image
    · exact h.others hy

theorem holdItems (h : W.HoldAlike m ctx n c c') {vs vs' : List Value} (hv : W.Rel vs vs') :
    W.HoldAlike m ctx n (c.holdItems vs) (c'.holdItems vs') where
  akin := ⟨h.akin.files, h.akin.recorded⟩
  start hx := (Holds.has_items vs).2 (.inr (h.start hx))
  shared hx := by
    rcases (Holds.has_items vs).1 hx with ⟨-, hx⟩ | hx
    · exact hv.shared hx
    · exact h.shared hx
  held {x} hx := by
    rcases (Holds.has_items vs).1 hx with ⟨owning, hx⟩ | hx
    · refine (Holds.has_items vs').2 (.inl ⟨owning, ?_⟩)
      rw [hv.eq, Refers.refs_rename]
      exact List.mem_map_of_mem hx
    · exact (Holds.has_items vs').2 (.inr (h.held hx))
  others hy := by
    rcases (Holds.has_items vs').1 hy with ⟨-, hy⟩ | hy
    · rw [hv.eq, Refers.refs_rename] at hy
      obtain ⟨x, hx, rfl⟩ := List.mem_map.1 hy
      exact .inl ⟨x, hv.shared hx, rfl⟩
    · exact h.others hy

end World.HoldAlike

namespace Beside

variable {m n k l : Machine} {ctx c d d' : Context} {W : World} {x y : Ref}

/-- A machine beside nothing. -/
protected theorem refl (hs : m.Sound m.taken) (hh : ∀ {x : Ref}, ctx.held.owned.Has x → x ∈ m.taken) :
    Beside m ctx m ctx where
  changes := .refl _ m
  nested := hs.nested
  spares := ⟨Machine.not_gone_of_held, Machine.not_gone_of_leads⟩
  akin := ⟨rfl, rfl⟩
  held h := h
  there := hh

/-- Where evaluations on both machines start from. It counts that a root is gone if all is as it was. -/
def origin (m : Machine) (ctx : Context) (n : Machine) : Origin :=
  ⟨World.present m ctx.held, m, n, fun k => m.ChangesWithin ∅ k⟩

theorem agrees (h : Beside m ctx n c) (hs : m.Sound m.taken) : (World.present m ctx.held).Agrees m n := by
  have inside := hs.agrees.restrict (S := m.taken \ m.gone ctx.held) Set.sdiff_subset fun hy hl =>
    ⟨(hs.agrees.leads hy.1 hl).1, Machine.not_gone_of_leads hy.2 hl⟩
  exact inside.of_changes_right h.changes

theorem leads (h : Beside m ctx n c) (hs : m.Sound m.taken) :
    (origin m ctx n).Leads (World.present m ctx.held) m n :=
  ⟨h.agrees hs, .refl _ m n⟩

theorem holdAlike (h : Beside m ctx n c) (hh : ∀ {x : Ref}, ctx.held.owned.Has x → x ∈ m.taken) :
    (World.present m ctx.held).HoldAlike m ctx n ctx c where
  akin := h.akin
  start hx := hx
  shared hx := ⟨hh hx, Machine.not_gone_of_held hx⟩
  held hx := h.held hx
  others hy := .inr ⟨h.there hy, h.spares.held hy⟩

/-! ### The first machine -/

section

variable (hl : (origin m ctx n).Leads W k l)
include hl

/-- What is in common was not gone. -/
theorem not_gone_of_shared (hx : x ∈ W.shared) : x ∉ m.gone ctx.held :=
  fun hg => (hl.since.toAdvances.old hx (Machine.mem_taken_of_gone hg)).2 hg

/-- All that is there and was not gone is in common. -/
theorem mem_shared (hx : x.kind ≠ .root) (ht : x ∈ k.taken) (hn : x ∉ m.gone ctx.held) : x ∈ W.shared := by
  by_cases old : x.index < m.count x.kind
  · exact hl.since.le.shared ⟨old, hn⟩
  · exact hl.since.fills hx (Nat.not_lt.1 old) ht

theorem nested_left (hm : m.Nested) : k.Nested := by
  intro e o f hf ho
  by_cases hs : ⟨.frame, e⟩ ∈ W.shared
  · obtain ⟨g, -, hg, -, -, outer⟩ := hl.agrees.frame hs
    rw [hf] at hg
    cases hg
    exact (outer o ho).1
  · have gone : ⟨.frame, e⟩ ∈ m.gone ctx.held := by
      by_contra hn
      exact hs (mem_shared hl RefKind.noConfusion (Array.getElem?_eq_some_iff.1 hf).1 hn)
    rw [hl.since.changes.frame gone.2.1 fun hn => hn.2 gone] at hf
    exact hm e o f hf ho

/-- What is gone on the first machine stays gone. -/
theorem not_survives (hd : W.HoldAlike m ctx n d d') (hx : x ∈ m.gone ctx.held) : ¬(k.survivors d.held).Has x := by
  refine Machine.gone_stays_gone ⟨fun hy => not_gone_of_shared hl (hd.shared hy), fun {x y} hy hyx => ?_⟩
    (fun {x y} hx hxy => ?_) hx
  · have shared := mem_shared hl hyx.has.1.kind_ne_root hyx.mem_taken hy
    exact not_gone_of_shared hl (hl.agrees.leads shared hyx).1
  · exact (hl.since.changes.leads_iff hx.2.1 fun hn => hn.2 hx).1 hxy

theorem mem_shared_of_survives (hd : W.HoldAlike m ctx n d d') (hx : (k.survivors d.held).Has x) : x ∈ W.shared := by
  have owning := Marks.owning_of_has hx
  have there := (Machine.has_iff_mem_taken owning).1 (Machine.leads_of_survivors hx).1
  exact mem_shared hl owning.kind_ne_root there fun hg => not_survives hl hd hg hx

/-- A root was there from the start and has kept its number. -/
theorem root_eq {r r' : FrameId} (hr : W.Names .root r r') : r < m.frames.size ∧ r = r' := by
  have start := hl.since.le.root hr.mem
  exact ⟨start.1, (hr.eq.trans (hl.since.le.apply start)).symm⟩

end

/-! ### The second machine -/

section

variable (h : Beside m ctx n c) (hl : (origin m ctx n).Leads W k l)
include h hl

theorem not_gone_of_image (hy : y ∈ W.image) : y ∉ m.gone ctx.held := by
  intro hg
  have old := hl.since.toAdvances.old_image hy (h.changes.taken_subset (Machine.mem_taken_of_gone hg))
  rw [origin, World.present, World.image_one] at old
  exact old.2 hg

omit h in
/-- What is not in common on the second machine is there as it was. -/
theorem leads_iff_right (hy : y ∉ W.image) (hx : y.Owning) (ht : y ∈ l.taken) :
    y ∈ n.taken ∧ (l.Leads y x ↔ n.Leads y x) := by
  have old : y ∈ n.taken := by
    by_contra hn
    exact hy (hl.since.fills' hx.kind_ne_root (Nat.not_lt.1 hn) ht)
  exact ⟨old, hl.since.changes'.leads_iff ((Machine.has_iff_mem_taken hx).2 old) fun hi =>
    hy (hl.since.le.image_subset hi)⟩

theorem leads_right (hy : y ∉ m.gone ctx.held) (hyx : l.Leads y x) : x ∉ m.gone ctx.held := by
  by_cases hi : y ∈ W.image
  · exact not_gone_of_image h hl (hl.agrees.leads_image hi hyx)
  · exact h.spares.leads hy ((leads_iff_right hl hi hyx.has.1 hyx.mem_taken).2.1 hyx)

theorem nested_right : l.Nested := by
  intro e o f hf ho
  by_cases hi : ⟨.frame, e⟩ ∈ W.image
  · obtain ⟨g, -, hg, -, -, outer⟩ := hl.agrees.symm.frame hi
    rw [hf] at hg
    cases hg
    exact (outer o ho).1
  · have there : ⟨.frame, e⟩ ∈ l.taken := (Array.getElem?_eq_some_iff.1 hf).1
    obtain ⟨old, -⟩ := leads_iff_right (x := ⟨.frame, e⟩) hl hi (.inl rfl) there
    rw [hl.since.changes'.frame old fun hn => hi (hl.since.le.image_subset hn)] at hf
    exact h.nested e o f hf ho

/-- What was gone on the first machine is gone on the second one. -/
theorem not_survives_right (hd : W.HoldAlike m ctx n d d') (hx : x ∈ m.gone ctx.held) :
    ¬(l.survivors d'.held).Has x := by
  refine Machine.gone_stays_gone ⟨fun hy => ?_, leads_right h hl⟩ (fun {x y} hx hxy => ?_) hx
  · exact (hd.others hy).elim (not_gone_of_image h hl) And.right
  · have own := leads_iff_right (x := y) hl (fun hi => not_gone_of_image h hl hi hx) hx.1 hxy.mem_taken
    exact (h.changes.leads_iff hx.2.1 (Set.notMem_empty _)).1 (own.2.1 hxy)

omit h in
theorem frames_there (hd : W.HoldAlike m ctx n d d') : ∀ e ∈ d'.held.frames, l.Has ⟨.frame, e⟩ := by
  intro e he
  rcases hd.others (Holds.has_handle he) with hi | ⟨ht, -⟩
  · exact (hl.agrees.symm.bound hi).1
  · exact Nat.lt_of_lt_of_le ht (hl.since.changes'.count .frame)

end

/-- **Roots beside other things**: under contexts that hold alike, a root that is there on the first machine is there
on the second one. If in the end all is as it was and a root is gone, then it was gone from the start. -/
theorem guarded (h : Beside m ctx n c) (hm : m.Nested) :
    Guarded (origin m ctx n) fun W d d' => W.HoldAlike m ctx n d d' where
  akin hd := hd.akin
  mono hd le := hd.mono le
  holdFrame hd he := hd.holdFrame he
  holdItems hd hv := hd.holdItems hv
  alive {W d d' k l r r'} hd hl hr ha := by
    have frames : ∀ e ∈ d.held.frames, k.Has ⟨.frame, e⟩ := fun e he =>
      (hl.agrees.bound (hd.shared (Holds.has_handle he))).1
    have alive := ((nested_left hl hm).isAlive_iff frames r).1 ha
    have shared := mem_shared_of_survives hl hd alive
    obtain ⟨old, rfl⟩ := root_eq hl hr
    have same : W.map .frame r = r := hl.since.le.apply (hl.since.toAdvances.old shared old)
    have alive' := hl.agrees.survives_rename (mem_shared_of_survives hl hd) hd.held alive
    rw [Ref.rename_mk, same] at alive'
    exact ⟨by simpa only [same] using World.names shared,
      ((nested_right h hl).isAlive_iff (frames_there hl hd) r).2 alive'⟩
  gone {W d d' k l r r'} hd hl hr ha hg := by
    obtain ⟨old, rfl⟩ := root_eq hl hr
    have frames : ∀ e ∈ d.held.frames, k.Has ⟨.frame, e⟩ := fun e he =>
      (hl.agrees.bound (hd.shared (Holds.has_handle he))).1
    by_contra alive
    rw [Bool.not_eq_false, (nested_right h hl).isAlive_iff (frames_there hl hd)] at alive
    have start : (m.survivors ctx.held).Has ⟨.frame, r⟩ := by
      by_contra hn
      exact not_survives_right (x := ⟨.frame, r⟩) h hl hd ⟨.inl rfl, old, hn⟩ alive
    -- what was not gone from the start upholds itself while nothing of it changes
    have upheld : (k.survivors d.held).Has ⟨.frame, r⟩ := by
      refine Machine.survives (m.survivors ctx.held).Has (fun x hx => ?_) start
      obtain ⟨there, owned⟩ := Machine.leads_of_survivors hx
      have owning := Marks.owning_of_has hx
      have there' := hg.taken_subset ((Machine.has_iff_mem_taken owning).1 there)
      refine ⟨owning, (Machine.has_iff_mem_taken owning).2 there', owned.imp hd.start ?_⟩
      rintro ⟨y, hy, hyx⟩
      exact ⟨y, hy, (hg.leads_iff hyx.has.2 (Set.notMem_empty _)).2 hyx⟩
    rw [← (nested_left hl hm).isAlive_iff frames, ha] at upheld
    cases upheld

/-! ### Afterwards -/

/-- If in the end the first machine is as it was but for what is new, so is the second one. -/
theorem changes_right (h : Beside m ctx n c) (hs : m.Sound m.taken) (hl : (origin m ctx n).Leads W k l)
    (hk : m.ChangesWithin ∅ k) : n.ChangesWithin ∅ l := by
  have start := h.agrees hs
  have image : (World.present m ctx.held).image = (World.present m ctx.held).shared := World.image_one _
  refine ⟨hl.since.changes'.count, fun {e} he _ => ?_, fun {a} ha _ => ?_⟩
  · by_cases hi : ⟨.frame, e⟩ ∈ (World.present m ctx.held).shared
    · exact start.frame_eq hl.agrees hl.since.le hi (hk.frame hi.1 (Set.notMem_empty _))
    · exact hl.since.changes'.frame he (image ▸ hi)
  · by_cases hi : ⟨.atom, a⟩ ∈ (World.present m ctx.held).shared
    · exact start.atom_eq hl.agrees hl.since.le hi (hk.atom hi.1 (Set.notMem_empty _))
    · exact hl.since.changes'.atom ha (image ▸ hi)

/-- **Evaluation beside other things** goes as it goes alone if alone it leaves what was there as it was in the end. It
leaves that as it was on the other machine too, which has then come of the first one in the same way again, with the
value held as well. -/
theorem evaluate (h : Beside m ctx n c) (hs : m.Sound m.taken) (hh : ∀ {x : Ref}, ctx.held.owned.Has x → x ∈ m.taken)
    {e : FrameId} {form : Value} (he : ⟨.frame, e⟩ ∈ (World.present m ctx.held).shared)
    (hf : ∀ x ∈ refs form, x ∈ (World.present m ctx.held).shared) {r : Except EvalError Value}
    (hr : MiniLisp.evaluate ctx e form m = some (r, k)) (hk : m.ChangesWithin ∅ k) :
    ∃ W s l, MiniLisp.evaluate c e form n = some (s, l) ∧ (origin m ctx n).Leads W k l ∧ W.Rel r s ∧
      n.ChangesWithin ∅ l ∧ ∀ v, s = .ok v → Beside m ctx l (c.holdValue v) := by
  have hform : (World.present m ctx.held).Rel form form := ⟨(Refers.rename_one form).symm, fun hx => hf _ hx⟩
  obtain ⟨W, s, l, hy, hl, -, out⟩ := (h.guarded hs.nested).alike (h.holdAlike hh) (World.names he) hform m n k r
    (h.leads hs) hr fun _ => hk
  have changes := h.changes_right hs hl hk
  refine ⟨W, s, l, hy, hl, out.rel, changes, fun v hv => ?_⟩
  have image {x : Ref} (hx : x ∈ refs v) : x ∈ W.image := by
    have rel := out.rel
    rw [hv] at rel
    exact rel.symm.shared hx
  refine ⟨h.changes.trans changes fun hx _ => hx, nested_right h hl, ⟨fun hx => ?_, leads_right h hl⟩,
    ⟨h.akin.files, h.akin.recorded⟩, fun hx => (Holds.has_items [v]).2 (.inr (h.held hx)), fun hx => ?_⟩
  · rcases (Holds.has_items [v]).1 hx with ⟨-, hx⟩ | hx
    · exact not_gone_of_image h hl (image (by simpa [Refers.refs] using hx))
    · exact h.spares.held hx
  · rcases (Holds.has_items [v]).1 hx with ⟨-, hx⟩ | hx
    · exact (hl.agrees.symm.bound (image (by simpa [Refers.refs] using hx))).1
    · exact changes.taken_subset (h.there hx)

end Beside

end MiniLisp

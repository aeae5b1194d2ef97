import Mathlib
import MiniLisp.Proofs.Beside
import MiniLisp.Proofs.Closed
import MiniLisp.Proofs.Join
import MiniLisp.Proofs.Sessions
import MiniLisp.Proofs.Settled

/-!
# The order of the entries of a map form

The entries of a map form are evaluated one after another, and their values are put into a new map. In which order they
are visited (`visit`) makes no difference if each of the forms, evaluated by itself, ends and leaves what was there as
it was: then the visit of an entry comes to what its form comes to by itself, beside what the earlier ones have made
(`eachEntry_ends`), and what the forms have made in one order is what they have made in another one, under other names
(`Visited.join`).

* `visit`: the entries of a map form visited in an order.
* `Independent`, `OwnOutcome`: a form that disturbs nothing, and what a form comes to by itself.
* `Session.Reachable.sound`, `Session.Running.sound`: in every session, and at every evaluation that takes place in it,
  references are to what is there.
* `entry_order_is_unobservable`: what two orders have in common.
-/

namespace MiniLisp

open Refers (rename refs)

/-! ## Visits -/

/-- Visits the entries of a map form in an order and puts each value under its key into a new map. -/
def visit (ctx : Context) (e : FrameId) (order : Entries) : Run Value :=
  Run.bind (Step.eachEntry evaluate ctx e order) fun vs => Run.pure (.map (Entries.insertAll [] vs))

theorem keys_of_eachEntry {es vs : Entries} {ctx : Context} {e : FrameId} {m m' : Machine}
    (h : Step.eachEntry evaluate ctx e es m = some (.ok vs, m')) : vs.map Prod.fst = es.map Prod.fst := by
  induction es generalizing ctx vs m with
  | nil =>
    cases h
    rfl
  | cons p es ih =>
    obtain ⟨_, _, -, h⟩ | ⟨v, m₁, -, h⟩ := Run.bind_eq_some h
    · cases h
    obtain ⟨_, _, -, h⟩ | ⟨ws, m₂, hw, h⟩ := Run.bind_eq_some h
    · cases h
    cases h
    rw [List.map_cons, List.map_cons, ih hw]

/-- Entries under the keys of ordered ones are ordered. -/
theorem Entries.Ordered.of_keys {es vs : Entries} (h : es.Ordered) (hk : vs.map Prod.fst = es.map Prod.fst) :
    vs.Ordered := by
  have keys : (vs.map Prod.fst).Pairwise fun k l => k.before l = true := by
    rw [hk]
    exact List.pairwise_map.2 h
  exact List.pairwise_map.1 keys

/-- The entries with other values. -/
def Entries.withValues (value : Key → Value) (es : Entries) : Entries := es.map fun p => (p.1, value p.1)

theorem Entries.keys_withValues (value : Key → Value) (es : Entries) :
    (es.withValues value).map Prod.fst = es.map Prod.fst := by
  simp [withValues]

/-- A map form is evaluated by a visit in the order of its keys. -/
theorem evaluate_map {es : Entries} (h : es.Ordered) (ctx : Context) (e : FrameId) :
    evaluate ctx e (.map es) =
      Run.bind (Run.recordValue ctx .trace "evaluate_ast " (.map es)) fun _ => visit (ctx.hold e (.map es)) e es := by
  funext m
  rw [evaluate_settled rfl, Step.expanded_plain (by simp), bind_done]
  have same : Run.bind (Step.eachEntry evaluate (ctx.hold e (.map es)) e es) (fun vs => Run.pure (.map vs)) =
      visit (ctx.hold e (.map es)) e es := by
    funext n
    rw [visit]
    cases hx : Step.eachEntry evaluate (ctx.hold e (.map es)) e es n with
    | none => simp only [Run.bind, hx]
    | some out =>
      obtain ⟨fault | vs, n'⟩ := out
      · rw [Run.bind_error hx, Run.bind_error hx]
      · rw [Run.bind_ok hx, Run.bind_ok hx, Entries.insertAll_eq_of_perm (h.of_keys (keys_of_eachEntry hx)) (.refl vs)]
  rw [← same]
  rfl

/-- A form that, evaluated by itself, ends, leaves all that is there as it was and prints nothing. -/
def Independent (ctx : Context) (e : FrameId) (m : Machine) (x : Value) : Prop :=
  ∃ r k, evaluate ctx e x m = some (r, k) ∧ m.ChangesWithin ∅ k ∧ k.printed = m.printed

/-- What a form comes to by itself, as it is found on another machine: what it has made is there under other names, and
what was there before under the same. -/
def OwnOutcome (ctx : Context) (e : FrameId) (m : Machine) (x : Value) (s : Except EvalError Value) (n : Machine) :
    Prop :=
  ∃ r k W, evaluate ctx e x m = some (r, k) ∧ (World.mk 1 m.taken).LE W ∧ W.Matches k n ∧ W.Rel r s

/-! ## One entry -/

/-- What has become of a form: its own outcome, in a world of all that was not gone and all that it has made. -/
structure Seen (ctx : Context) (e : FrameId) (m : Machine) (x : Value) (s : Except EvalError Value) (n : Machine)
    (W : World) : Prop where
  own : ∃ r k, evaluate ctx e x m = some (r, k) ∧ m.ChangesWithin ∅ k ∧ W.Agrees k n ∧ W.Rel r s ∧
    ∀ y, y ∈ W.shared ↔ y ∈ (World.present m ctx.held).shared ∨
      y.kind ≠ .root ∧ m.count y.kind ≤ y.index ∧ y ∈ k.taken
  keeps : W.Keeps m.taken

variable {ctx c : Context} {e : FrameId} {m n n' k l : Machine} {x : Value} {r s s' : Except EvalError Value}
  {W W' : World}

namespace Beside

theorem mem_shared_iff (hl : (origin m ctx n).Leads W k l) (y : Ref) :
    y ∈ W.shared ↔ y ∈ (World.present m ctx.held).shared ∨
      y.kind ≠ .root ∧ m.count y.kind ≤ y.index ∧ y ∈ k.taken := by
  constructor
  · intro hy
    rcases hl.since.fresh hy with hy' | ⟨hge, -⟩
    · exact .inl hy'
    · obtain ⟨kind, i⟩ := y
      cases kind with
      | root => exact .inl (hl.since.le.root hy)
      | _ => exact .inr ⟨RefKind.noConfusion, hge, (hl.agrees.bound hy).1⟩
  · rintro (hy | ⟨hk, hge, ht⟩)
    · exact hl.since.le.shared hy
    · exact hl.since.fills hk hge ht

theorem keeps (h : Beside m ctx n c) (hl : (origin m ctx n).Leads W k l) : W.Keeps m.taken where
  mem_iff {y} hy := by
    rcases hl.since.fresh hy with hy' | ⟨hge, hge'⟩
    · rw [hl.since.le.map hy']
      exact Iff.rfl
    · exact iff_of_false (Nat.not_lt.2 ((h.changes.count _).trans hge')) (Nat.not_lt.2 hge)
  eq hy hT := hl.since.le.map (hl.since.toAdvances.old hy hT)
  root hr := (hl.since.le.root hr).1

/-- What is new on the second machine. -/
theorem image_new (hl : (origin m ctx n).Leads W k l) {y : Ref} (hy : y ∈ W.image) :
    y ∈ m.taken ∨ n.count y.kind ≤ y.index := by
  obtain ⟨z, hz, rfl⟩ := hy
  rcases hl.since.fresh hz with hz' | ⟨-, hge⟩
  · rw [hl.since.le.map hz']
    exact .inl hz'.1
  · exact .inr hge

end Beside

namespace Seen

theorem of_changes (h : Seen ctx e m x s n W) (hc : n.ChangesWithin ∅ n') : Seen ctx e m x s n' W := by
  obtain ⟨⟨r, k, hr, hk, ha, rel, hW⟩, keeps⟩ := h
  exact ⟨⟨r, k, hr, hk, ha.of_changes_right hc, rel, hW⟩, keeps⟩

theorem bound (h : Seen ctx e m x s n W) {y : Ref} (hy : y ∈ W.image) : y ∈ n.taken := by
  obtain ⟨⟨r, k, -, -, ha, -⟩, -⟩ := h
  exact (ha.symm.bound hy).1

/-- The same form on two machines. -/
theorem trans (h : Seen ctx e m x s n W) (h' : Seen ctx e m x s' n' W') :
    (W.symm.trans W').Agrees n n' ∧ (W.symm.trans W').Keeps m.taken ∧ (W.symm.trans W').image = W'.image ∧
      (W.symm.trans W').Rel s s' := by
  obtain ⟨⟨r, k, hr, -, ha, rel, hW⟩, keeps⟩ := h
  obtain ⟨⟨r', k', hr', -, ha', rel', hW'⟩, keeps'⟩ := h'
  rw [hr] at hr'
  cases hr'
  have middle : W.symm.image = W'.shared :=
    (congrArg World.shared W.symm_symm).trans (Set.ext fun y => (hW y).trans (hW' y).symm)
  exact ⟨ha.symm.trans ha' middle.le, keeps.symm.trans keeps' middle.le, World.image_trans middle, rel.symm.trans rel'⟩

end Seen

/-! ## All that is there besides -/

/-- What was there is there under its own names on all machines that have come of it by additions. -/
theorem Machine.Sound.agrees_one (hs : m.Sound m.taken) (hn : m.ChangesWithin ∅ n) (hn' : m.ChangesWithin ∅ n') :
    (World.mk 1 m.taken).Agrees n n' :=
  (hs.agrees.of_changes hn (Set.empty_disjoint _)).of_changes_right hn'

/-- Worlds that meet only in what was there make up one world, together with all that was there under its own
names. -/
theorem World.exists_join_taken {ι : Type} {U : ι → World} (h : (World.mk 1 m.taken).Agrees n n')
    (hU : ∀ i, (U i).Agrees n n') (hk : ∀ i, (U i).Keeps m.taken)
    (hs : ∀ i j, i ≠ j → (U i).shared ∩ (U j).shared ⊆ m.taken)
    (hi : ∀ i j, i ≠ j → (U i).image ∩ (U j).image ⊆ m.taken) :
    ∃ W : World, (World.mk 1 m.taken).LE W ∧ W.Matches n n' ∧ ∀ i, (U i).Sub W := by
  have own : (World.mk 1 m.taken).image = m.taken := World.image_one _
  obtain ⟨W, ha, keeps, parts⟩ := World.exists_join (T := m.taken) (U := fun o : Option ι => o.elim ⟨1, m.taken⟩ U)
    (Option.rec h hU) (Option.rec (World.keeps_one _) hk)
    (fun o o' ho => match o, o', ho with
      | some i, some j, ho => hs i j fun h => ho (congrArg some h)
      | none, _, _ => Set.inter_subset_left
      | some _, none, _ => Set.inter_subset_right)
    fun o o' ho => match o, o', ho with
      | some i, some j, ho => hi i j fun h => ho (congrArg some h)
      | none, _, _ => Set.inter_subset_left.trans own.le
      | some _, none, _ => Set.inter_subset_right.trans own.le
  have start := parts none
  refine ⟨W, ⟨start.shared, start.map, keeps.root⟩, ha.matches fun r hr => ?_, fun i => parts (some i)⟩
  have root : ⟨.root, r⟩ ∈ m.taken := keeps.root hr
  have frame : ⟨.frame, r⟩ ∈ m.taken := root
  exact ⟨start.shared frame, (start.names root).trans (start.names frame).symm⟩

theorem Seen.ownOutcome (h : Seen ctx e m x s n W) (hs : m.Sound m.taken) (hn : m.ChangesWithin ∅ n) :
    OwnOutcome ctx e m x s n := by
  obtain ⟨⟨r, k, hr, hk, ha, rel, -⟩, keeps⟩ := h
  obtain ⟨V, le, matched, parts⟩ := World.exists_join_taken (U := fun _ : Unit => W) (hs.agrees_one hk hn)
    (fun _ => ha) (fun _ => keeps) (fun _ _ hne => absurd rfl hne) fun _ _ hne => absurd rfl hne
  exact ⟨r, k, V, hr, le, matched, rel.of_sub (parts ())⟩

/-! ## All entries -/

/-- All entries have been visited: their values, each in a world of its own, and none of these has anything new in
common with another one. -/
structure Visited (ctx : Context) (e : FrameId) (m n : Machine) (order : Entries) (value : Key → Value)
    (W : Key → World) (n' : Machine) : Prop where
  seen {p : Key × Value} (hp : p ∈ order) : Seen ctx e m p.2 (.ok (value p.1)) n' (W p.1)
  new {a : Key} (ha : a ∈ order.map Prod.fst) {y : Ref} (hy : y ∈ (W a).image) :
    y ∈ m.taken ∨ n.count y.kind ≤ y.index
  apart {a b : Key} (ha : a ∈ order.map Prod.fst) (hb : b ∈ order.map Prod.fst) (hab : a ≠ b) :
    (W a).image ∩ (W b).image ⊆ m.taken

/-- One more entry is visited first. -/
theorem Visited.cons {p : Key × Value} {order : Entries} {value : Key → Value} {V : Key → World} {v : Value}
    (hd : p.1 ∉ order.map Prod.fst) (first : Seen ctx e m p.2 (.ok v) l W)
    (new : ∀ {y : Ref}, y ∈ W.image → y ∈ m.taken ∨ n.count y.kind ≤ y.index) (hc : n.ChangesWithin ∅ l)
    (hc' : l.ChangesWithin ∅ n') (h : Visited ctx e m l order value V n') :
    Visited ctx e m n (p :: order) (Function.update value p.1 v) (Function.update V p.1 W) n' := by
  have others {a : Key} (ha : a ∈ order.map Prod.fst) : a ≠ p.1 := fun he => hd (he ▸ ha)
  -- what the later ones make is new to what the first one has made
  have meet {a : Key} (ha : a ∈ order.map Prod.fst) {y : Ref} (hy : y ∈ W.image) (hy' : y ∈ (V a).image) :
      y ∈ m.taken :=
    (h.new ha hy').resolve_right (Nat.not_le.2 (first.bound hy))
  refine ⟨fun {q} hq => ?_, fun {a} ha y hy => ?_, fun {a b} ha hb hab y hy => ?_⟩
  · rcases List.mem_cons.1 hq with rfl | later
    · simpa only [Function.update_self] using first.of_changes hc'
    · simpa only [Function.update_of_ne (others (List.mem_map_of_mem later))] using h.seen later
  · rcases List.mem_cons.1 ha with rfl | later
    · exact new (by simpa only [Function.update_self] using hy)
    · rw [Function.update_of_ne (others later)] at hy
      exact (h.new later hy).imp_right (hc.count _).trans
  · rcases List.mem_cons.1 ha with rfl | later <;> rcases List.mem_cons.1 hb with rfl | later'
    · exact absurd rfl hab
    · rw [Function.update_self, Function.update_of_ne (others later')] at hy
      exact meet later' hy.1 hy.2
    · rw [Function.update_self, Function.update_of_ne (others later)] at hy
      exact meet later hy.2 hy.1
    · rw [Function.update_of_ne (others later), Function.update_of_ne (others later')] at hy
      exact h.apart later later' hab hy

/-- **A visit** of independent entries ends, beside whatever there is: with a value for each entry, or with the failure
of one of the forms. -/
theorem eachEntry_ends {order : Entries} (hd : (order.map Prod.fst).Nodup)
    (hx : ∀ p ∈ order, Independent ctx e m p.2) (hs : m.Sound m.taken)
    (hh : ∀ {x : Ref}, ctx.held.owned.Has x → x ∈ m.taken) (he : ⟨.frame, e⟩ ∈ (World.present m ctx.held).shared)
    (hf : ∀ p ∈ order, ∀ y ∈ refs p.2, y ∈ (World.present m ctx.held).shared) (h : Beside m ctx n c) :
    ∃ n', n.ChangesWithin ∅ n' ∧ n'.printed = n.printed ∧
      ((∃ value W, Step.eachEntry evaluate c e order n = some (.ok (Entries.withValues value order), n') ∧
          Visited ctx e m n order value W n') ∨
        ∃ fault, Step.eachEntry evaluate c e order n = some (.error fault, n') ∧
          ∃ p ∈ order, ∃ W, Seen ctx e m p.2 (.error fault) n' W) := by
  induction order generalizing n c with
  | nil =>
    exact ⟨n, .refl _ n, rfl, .inl ⟨fun _ => .nil, fun _ => ⟨1, ∅⟩, rfl, nofun, nofun, nofun⟩⟩
  | cons p order ih =>
    obtain ⟨distinct, hd⟩ := List.nodup_cons.1 hd
    obtain ⟨r, k, hr, hk, silent⟩ := hx p List.mem_cons_self
    obtain ⟨W, s, n₁, hy, hl, rel, changes, go⟩ := h.evaluate hs hh he (hf p List.mem_cons_self) hr hk
    have first : Seen ctx e m p.2 s n₁ W := ⟨⟨r, k, hr, hk, hl.agrees, rel, Beside.mem_shared_iff hl⟩, h.keeps hl⟩
    have quiet : n₁.printed = n.printed := hl.since.output.silent silent
    cases s with
    | error fault =>
      exact ⟨n₁, changes, quiet, .inr ⟨fault, Run.bind_error hy, p, List.mem_cons_self, W, first⟩⟩
    | ok v =>
      obtain ⟨n₂, changes', quiet', out⟩ := ih hd (fun q hq => hx q (List.mem_cons_of_mem _ hq))
        (fun q hq => hf q (List.mem_cons_of_mem _ hq)) (go v rfl)
      refine ⟨n₂, changes.trans changes' fun hx _ => hx, quiet'.trans quiet, ?_⟩
      rcases out with ⟨value, V, hvs, visited⟩ | ⟨fault, hfault, q, hq, V, seen⟩
      · refine .inl ⟨_, _, ?_, visited.cons distinct first (Beside.image_new hl) changes changes'⟩
        have rest : Entries.withValues (Function.update value p.1 v) order = Entries.withValues value order :=
          List.map_congr_left fun (q : Key × Value) hq => by
            have other : q.1 ≠ p.1 := fun he => distinct (he ▸ List.mem_map_of_mem hq)
            rw [Function.update_of_ne other]
        rw [Entries.withValues, List.map_cons, Function.update_self, ← Entries.withValues, rest]
        exact (Run.bind_ok hy).trans (Run.bind_ok hvs)
      · exact .inr ⟨fault, (Run.bind_ok hy).trans (Run.bind_error hfault), q, List.mem_cons_of_mem _ hq, V, seen⟩

theorem Visited.subset {es order : Entries} {value : Key → Value} {V : Key → World}
    (h : Visited ctx e m n order value V n') (hs : es ⊆ order) : Visited ctx e m n es value V n' where
  seen hp := h.seen (hs hp)
  new ha := h.new (List.map_subset _ hs ha)
  apart ha hb := h.apart (List.map_subset _ hs ha) (List.map_subset _ hs hb)

/-! ## Numbers that are taken, in every session -/

/-- No number that is taken comes free again. -/
theorem Machine.taken_mono {m m' : Machine} (hf : m.Grows m') (ha : m.atoms.size ≤ m'.atoms.size)
    (hc : m.closures ≤ m'.closures) : m.taken ⊆ m'.taken := by
  have frames : m.frames.size ≤ m'.frames.size := by
    refine Nat.le_of_not_lt fun h => ?_
    obtain ⟨g, hg, -⟩ := hf m'.frames.size _ (Array.getElem?_eq_getElem h)
    exact Nat.lt_irrefl _ (Array.getElem?_eq_some_iff.1 hg).1
  rintro ⟨k, i⟩ h
  cases k with
  | frame | root => exact Nat.lt_of_lt_of_le h frames
  | atom => exact Nat.lt_of_lt_of_le h ha
  | closure => exact Nat.lt_of_lt_of_le h hc

theorem Machine.newRoot_taken (m : Machine) :
    ⟨.root, m.frames.size⟩ ∈ (m.addFrame (Interpreter.rootBindings m.frames.size) none).2.taken :=
  (Array.getElem?_eq_some_iff.1 Array.getElem?_push_size).1

/-- References are to numbers that are taken, whatever the values. -/
def Invariant.numbers : Invariant :=
  { Invariant.references with
    has := Machine.taken
    frame := Iff.rfl
    cell := Iff.rfl
    root := id
    newRoot := Machine.newRoot_taken
    newClosure := fun m => Nat.lt_succ_self m.closures
    mono := Machine.taken_mono }

/-- A machine that keeps to the invariant refers to nothing but what is there. -/
theorem Machine.sound_of_holds (h : Invariant.numbers.Holds m) : m.Sound m.taken where
  bound hx := ⟨hx, hx⟩
  root hr := ⟨hr, rfl⟩
  frame {e} he := by
    have there : m.frames[e]? = some m.frames[e] := Array.getElem?_eq_getElem he
    exact ⟨_, _, there, there, ⟨(Refers.rename_one _).symm, fun hx => h.frameWithin there _ hx⟩,
      fun o ho => ⟨h.outer there ho, h.outer there ho⟩⟩
  atom {a} _ := ⟨(Refers.rename_one _).symm, fun hx => (h.atomValue a).within _ hx⟩

namespace Session

variable {session : Session} {recorded : Option Level} {waiting : List FrameId} {form : Value}

/-- In every session, references are to what is there. -/
theorem Reachable.sound (h : session.Reachable) : session.machine.Sound session.machine.taken :=
  Machine.sound_of_holds (h.holdsIn .numbers).machine

/-- At every evaluation that takes place in a session, references are to what is there: those of the machine, of the
form and of all that is held, and the frame is there. -/
theorem Running.sound (hs : session.Reachable) (h : session.Running recorded waiting ctx e form m) :
    m.Sound m.taken ∧ ctx.Within [] m.taken ∧ ⟨.frame, e⟩ ∈ m.taken ∧ Refers.Within m.taken form := by
  have covered := h.covered (hs.holdsIn .numbers)
  have context : ctx.Within (waiting ++ session.kept) m.taken := covered.context
  exact ⟨Machine.sound_of_holds covered.holds, ⟨List.nil_subset _, context.frames, context.values⟩, covered.frame,
    covered.form.within⟩

end Session

/-! ## Two orders -/

/-- What the entries of a map form come to if each form goes its own way: a map with their keys, each bound to what its
own form comes to by itself, or what one of the forms fails with by itself. -/
def OwnOutcomes (ctx : Context) (e : FrameId) (m : Machine) (es : Entries) : Except EvalError Value → Machine → Prop
  | .ok v, n => ∃ value : Key → Value, v = .map (es.withValues value) ∧
      ∀ p ∈ es, OwnOutcome ctx e m p.2 (.ok (value p.1)) n
  | .error fault, n => ∃ p ∈ es, OwnOutcome ctx e m p.2 (.error fault) n

/-- What has become of a visit of the entries in some order. -/
inductive Ended (ctx : Context) (e : FrameId) (m : Machine) (es : Entries) : Except EvalError Value → Machine → Prop
  | done {value : Key → Value} {V : Key → World} {n : Machine} (h : Visited ctx e m m es value V n) :
    Ended ctx e m es (.ok (.map (es.withValues value))) n
  | failed {fault : EvalError} {p : Key × Value} {W : World} {n : Machine} (hp : p ∈ es)
    (h : Seen ctx e m p.2 (.error fault) n W) : Ended ctx e m es (.error fault) n

/-- A visit in any order puts the values into the order of the keys. -/
theorem visit_of_perm {order es : Entries} {value : Key → Value} (ho : es.Ordered) (hp : order.Perm es)
    (h : Step.eachEntry evaluate ctx e order m = some (.ok (order.withValues value), n)) :
    visit ctx e order m = some (.ok (.map (es.withValues value)), n) := by
  have ordered : (es.withValues value).Ordered := ho.of_keys (Entries.keys_withValues value es)
  have perm : (order.withValues value).Perm (es.withValues value) := hp.map _
  rw [visit, Run.bind_ok h, Entries.insertAll_eq_of_perm ordered perm]
  rfl

/-- A visit of independent entries ends in any order. -/
theorem visit_ends {es order : Entries} (ho : es.Ordered) (hp : order.Perm es)
    (hx : ∀ p ∈ es, Independent ctx e m p.2) (hs : m.Sound m.taken)
    (hh : ∀ {x : Ref}, ctx.held.owned.Has x → x ∈ m.taken) (he : ⟨.frame, e⟩ ∈ (World.present m ctx.held).shared)
    (hf : ∀ p ∈ es, ∀ y ∈ refs p.2, y ∈ (World.present m ctx.held).shared) :
    ∃ s n, visit ctx e order m = some (s, n) ∧ Ended ctx e m es s n ∧ m.ChangesWithin ∅ n ∧ n.printed = m.printed := by
  have keys : (order.map Prod.fst).Nodup :=
    (hp.map _).nodup_iff.2 (List.pairwise_map.2 (Entries.ne_of_ordered ho))
  obtain ⟨n, changes, quiet, ⟨value, W, hvs, visited⟩ | ⟨fault, hfault, p, hpo, W, seen⟩⟩ :=
    eachEntry_ends keys (fun p h => hx p (hp.subset h)) hs hh he (fun p h => hf p (hp.subset h)) (.refl hs hh)
  · exact ⟨_, n, visit_of_perm ho hp hvs, .done (visited.subset hp.symm.subset), changes, quiet⟩
  · exact ⟨_, n, Run.bind_error hfault, .failed (hp.subset hpo) seen, changes, quiet⟩

theorem World.Rel.withValues {es : Entries} {value value' : Key → Value}
    (h : ∀ p ∈ es, W.Rel (value p.1) (value' p.1)) : W.Rel (es.withValues value) (es.withValues value') := by
  induction es with
  | nil => exact .nil
  | cons p es ih =>
    have key : W.Rel p.1 p.1 := .of_nil rfl rfl
    exact (key.pair (h p List.mem_cons_self)).cons (ih fun q hq => h q (List.mem_cons_of_mem _ hq))

/-- **Two visits** of the same entries make the same, under other names. -/
theorem Visited.join {es : Entries} {value value' : Key → Value} {V V' : Key → World} {n₁ n₁' : Machine}
    (h : Visited ctx e m n es value V n₁) (h' : Visited ctx e m n' es value' V' n₁') (hs : m.Sound m.taken)
    (hc : m.ChangesWithin ∅ n₁) (hc' : m.ChangesWithin ∅ n₁') :
    ∃ W : World, (World.mk 1 m.taken).LE W ∧ W.Matches n₁ n₁' ∧ W.Rel (es.withValues value) (es.withValues value') := by
  let U (a : {a // a ∈ es.map Prod.fst}) : World := (V a).symm.trans (V' a)
  have same (a) : (U a).Agrees n₁ n₁' ∧ (U a).Keeps m.taken ∧ (U a).image = (V' a).image ∧
      (U a).Rel (Except.ok (ε := EvalError) (value a)) (Except.ok (value' a)) := by
    obtain ⟨_, ha⟩ := a
    obtain ⟨p, hp, rfl⟩ := List.mem_map.1 ha
    exact (h.seen hp).trans (h'.seen hp)
  have distinct {a b : {a // a ∈ es.map Prod.fst}} (hab : a ≠ b) : (a : Key) ≠ b := fun he => hab (Subtype.ext he)
  obtain ⟨W, le, matched, parts⟩ := World.exists_join_taken (U := U) (hs.agrees_one hc hc') (fun a => (same a).1)
    (fun a => (same a).2.1) (fun a b hab => h.apart a.2 b.2 (distinct hab)) fun a b hab => by
      rw [(same a).2.2.1, (same b).2.2.1]
      exact h'.apart a.2 b.2 (distinct hab)
  refine ⟨W, le, matched, .withValues fun p hp => ?_⟩
  have rel := (same ⟨p.1, List.mem_map_of_mem hp⟩).2.2.2.of_sub (parts _)
  exact ⟨Except.ok.inj rel.eq, rel.shared⟩

namespace Ended

variable {es : Entries}

theorem ownOutcomes (h : Ended ctx e m es s n) (hs : m.Sound m.taken) (hc : m.ChangesWithin ∅ n) :
    OwnOutcomes ctx e m es s n := by
  cases h with
  | done h => exact ⟨_, rfl, fun p hp => (h.seen hp).ownOutcome hs hc⟩
  | failed hp h => exact ⟨_, hp, h.ownOutcome hs hc⟩

/-- Visits in two orders come to the same map, or both fail. -/
theorem alike (h : Ended ctx e m es s n) (h' : Ended ctx e m es s' n') (hs : m.Sound m.taken)
    (hc : m.ChangesWithin ∅ n) (hc' : m.ChangesWithin ∅ n') :
    (∃ v v', s = .ok v ∧ s' = .ok v' ∧ ∃ W : World, (World.mk 1 m.taken).LE W ∧ W.Matches n n' ∧ W.Rel v v') ∨
      ∃ fault fault', s = .error fault ∧ s' = .error fault' := by
  cases h with
  | done h =>
    cases h' with
    | done h' =>
      obtain ⟨W, le, matched, rel⟩ := h.join h' hs hc hc'
      exact .inl ⟨_, _, rfl, rfl, W, le, matched, rel.entries⟩
    | failed hp h' => cases ((h.seen hp).trans h').2.2.2.eq
  | failed hp h =>
    cases h' with
    | done h' => cases (h.trans (h'.seen hp)).2.2.2.eq
    | failed _ h' => exact .inr ⟨_, _, rfl, rfl⟩

end Ended

theorem Context.Within.mem_of_held {S : Set Ref} (hc : ctx.Within [] S) {y : Ref} (hy : ctx.held.owned.Has y) :
    y ∈ S := by
  rcases (ctx.held.has_owned y).1 hy with ⟨e, he, rfl⟩ | ⟨v, hv, hy⟩
  · exact hc.frames he
  · exact hc.values hv y ((Value.has_owned y v).1 hy).2

/-- What is there and held if it can be is not gone. -/
theorem mem_present {y : Ref} (hy : y ∈ m.taken) (h : y.Owning → ctx.held.owned.Has y) :
    y ∈ (World.present m ctx.held).shared :=
  ⟨hy, fun hg => Machine.not_gone_of_held (h hg.1) hg⟩

/-- **The order of the entries** of a map form does not matter if each of their forms, evaluated by itself, ends, leaves
what is there as it is and prints nothing. Visits in any two orders both come to a map with the keys of the form, each
bound to what its own form comes to, and the maps are the same but for the names of what the forms have made; or both
fail, each with what one of the forms fails with. All that is there, is held or is in the form refers to nothing but what
is there. -/
theorem entry_order_is_unobservable {es : Entries} (ho : es.Ordered) (hs : m.Sound m.taken)
    (hc : ctx.Within [] m.taken) (he : ⟨.frame, e⟩ ∈ m.taken) (hf : Refers.Within m.taken es)
    (hx : ∀ p ∈ es, Independent (ctx.hold e (.map es)) e m p.2) :
    evaluate ctx e (.map es) = Run.bind (Run.recordValue ctx .trace "evaluate_ast " (.map es))
        (fun _ => visit (ctx.hold e (.map es)) e es) ∧
      ∀ order order' : Entries, order.Perm es → order'.Perm es → ∃ s s' n n',
        visit (ctx.hold e (.map es)) e order m = some (s, n) ∧ visit (ctx.hold e (.map es)) e order' m = some (s', n') ∧
        OwnOutcomes (ctx.hold e (.map es)) e m es s n ∧ OwnOutcomes (ctx.hold e (.map es)) e m es s' n' ∧
        m.ChangesWithin ∅ n ∧ m.ChangesWithin ∅ n' ∧ n.printed = m.printed ∧ n'.printed = m.printed ∧
        ((∃ v v', s = .ok v ∧ s' = .ok v' ∧ ∃ W : World, (World.mk 1 m.taken).LE W ∧ W.Matches n n' ∧ W.Rel v v') ∨
          ∃ fault fault', s = .error fault ∧ s' = .error fault') := by
  refine ⟨evaluate_map ho ctx e, fun order order' hp hp' => ?_⟩
  have within : (ctx.hold e (.map es)).Within [] m.taken := hc.hold he hf.entries
  have frame : ⟨.frame, e⟩ ∈ (World.present m (ctx.hold e (.map es)).held).shared :=
    mem_present he fun _ => (Holds.has_items [_]).2 (.inr ((Holds.has_frame e).2 (.inl rfl)))
  have forms (p : Key × Value) (hpe : p ∈ es) (y : Ref) (hy : y ∈ refs p.2) :
      y ∈ (World.present m (ctx.hold e (.map es)).held).shared := by
    have inside : y ∈ refs es := List.mem_flatMap.2 ⟨p, hpe, List.mem_append_right _ hy⟩
    have form : y ∈ refs [Value.map es] := List.mem_append_left _ (by rwa [← Value.refsEntries_eq] at inside)
    exact mem_present (hf y inside) fun owning => (Holds.has_items [_]).2 (.inl ⟨owning, form⟩)
  obtain ⟨s, n, hv, ended, changes, quiet⟩ := visit_ends ho hp hx hs within.mem_of_held frame forms
  obtain ⟨s', n', hv', ended', changes', quiet'⟩ := visit_ends ho hp' hx hs within.mem_of_held frame forms
  exact ⟨s, s', n, n', hv, hv', ended.ownOutcomes hs changes, ended'.ownOutcomes hs changes', changes, changes', quiet,
    quiet', ended.alike ended' hs changes changes'⟩

/-! ### Two cells -/

/-- A root in which cells can be made, and the cells that have been made. -/
def cellMaker (cells : Array Value) : Machine := ⟨#[⟨[("atom", .builtin .atom)], none⟩], cells, 0, "", #[]⟩

/-- Makes a cell. -/
def newCell (v : Value) : Value := .list [.symbol "atom", v]

def twoCells : Entries := [(.keyword "a", newCell (.text "x")), (.keyword "b", newCell (.text "y"))]

def cellsHeld : Context := ⟨fun _ => .error .notFound, none, ⟨[0], []⟩⟩

theorem cellMaker_sound : (cellMaker #[]).Sound (cellMaker #[]).taken where
  bound hx := ⟨hx, hx⟩
  root hr := ⟨hr, rfl⟩
  frame {e} he := by
    obtain rfl : e = 0 := Nat.lt_one_iff.1 he
    exact ⟨_, _, rfl, rfl, .of_nil rfl rfl, fun o ho => nomatch ho⟩
  atom ha := absurd ha (Nat.not_lt_zero _)

theorem cellMaker_changes (v : Value) : (cellMaker #[]).ChangesWithin ∅ (cellMaker #[v]) where
  count k := by cases k <;> exact Nat.le_of_ble_eq_true rfl
  frame _ _ := rfl
  atom ha := absurd ha (Nat.not_lt_zero _)

theorem evaluate_newCell (held : Holds) (s : String) (cells : Array Value) :
    evaluate { cellsHeld with held } 0 (newCell (.text s)) (cellMaker cells) =
      some (.ok (.atom cells.size), cellMaker (cells.push (.text s))) :=
  evaluate_of_evalWithin 2 _ _ _ _ _ rfl

theorem visit_newCells (held : Holds) (k l : Key) (s t : String) :
    visit { cellsHeld with held } 0 [(k, newCell (.text s)), (l, newCell (.text t))] (cellMaker #[]) =
      some (.ok (.map (Entries.insertAll [] [(k, .atom 0), (l, .atom 1)])), cellMaker #[.text s, .text t]) := by
  have second : Step.eachEntry evaluate { cellsHeld with held := held.value (.atom 0) } 0 [(l, newCell (.text t))]
      (cellMaker #[.text s]) = some (.ok [(l, .atom 1)], cellMaker #[.text s, .text t]) :=
    Run.bind_ok (evaluate_newCell _ t #[.text s])
  have both : Step.eachEntry evaluate { cellsHeld with held } 0 [(k, newCell (.text s)), (l, newCell (.text t))]
      (cellMaker #[]) = some (.ok [(k, .atom 0), (l, .atom 1)], cellMaker #[.text s, .text t]) :=
    (Run.bind_ok (evaluate_newCell _ s #[])).trans (Run.bind_ok second)
  exact Run.bind_ok both

/-- Two cells are made in either order: the maps have them under different names. -/
theorem entry_order_is_unobservable_two_cells :
    let ctx := cellsHeld.hold 0 (.map twoCells)
    let made (i j : AtomId) : Value := .map [(.keyword "a", .atom i), (.keyword "b", .atom j)]
    let n := cellMaker #[.text "x", .text "y"]
    let n' := cellMaker #[.text "y", .text "x"]
    visit ctx 0 twoCells (cellMaker #[]) = some (.ok (made 0 1), n) ∧
      visit ctx 0 twoCells.reverse (cellMaker #[]) = some (.ok (made 1 0), n') ∧
      ∃ W : World, (World.mk 1 (cellMaker #[]).taken).LE W ∧ W.Matches n n' ∧ W.Rel (made 0 1) (made 1 0) := by
  intro ctx made n n'
  have independent : ∀ p ∈ twoCells, Independent ctx 0 (cellMaker #[]) p.2 := by
    intro p hp
    rcases List.mem_cons.1 hp with rfl | hp
    · exact ⟨_, _, evaluate_newCell _ "x" #[], cellMaker_changes _, rfl⟩
    · rw [List.mem_singleton.1 hp]
      exact ⟨_, _, evaluate_newCell _ "y" #[], cellMaker_changes _, rfl⟩
  have forward : visit ctx 0 twoCells (cellMaker #[]) = some (.ok (made 0 1), n) :=
    visit_newCells _ (.keyword "a") (.keyword "b") "x" "y"
  have backward : visit ctx 0 twoCells.reverse (cellMaker #[]) = some (.ok (made 1 0), n') :=
    visit_newCells _ (.keyword "b") (.keyword "a") "y" "x"
  have ordered : twoCells.Ordered := List.pairwise_pair.2 (by decide)
  have held : cellsHeld.Within [] (cellMaker #[]).taken :=
    ⟨List.nil_subset _, fun he => by rw [List.mem_singleton.1 he]; exact Nat.zero_lt_one, nofun⟩
  obtain ⟨-, orders⟩ := entry_order_is_unobservable ordered cellMaker_sound held Nat.zero_lt_one (.of_nil rfl)
    independent
  obtain ⟨s, s', k, k', hv, hv', -, -, -, -, -, -, out⟩ :=
    orders twoCells twoCells.reverse (.refl _) (List.reverse_perm _)
  cases forward.symm.trans hv
  cases backward.symm.trans hv'
  rcases out with ⟨_, _, first, second, same⟩ | ⟨_, _, failed, -⟩
  · cases first
    cases second
    exact ⟨forward, backward, same⟩
  · cases failed

end MiniLisp

import Mathlib
import MiniLisp.Proofs.Prelude
import MiniLisp.Proofs.Reach

/-!
# Roots that share nothing

Evaluation depends on what it can reach, and changes nothing else. Hence roots of which none reaches what another one
reaches do not influence each other, in whatever order forms are evaluated in them: each gets what it gets alone.

* `Interleaved`: forms evaluated in turn, each in one of several roots.
* `evaluation_keeps_to_its_reach`: what evaluation depends on and what it changes.
-/

namespace MiniLisp

open Refers (rename refs)

/-! ## Turns -/

/-- What came of evaluations: their outcomes and the texts that they printed. -/
abbrev History := List (Except EvalError Value × String)

/-- Somebody who evaluates forms in a root. The next form is chosen by what came of the earlier ones, without a look at
the numbers of things; it may contain whatever they came to. -/
structure Party where
  root : FrameId
  next : History → Value
  equivariant : Equivariant next

/-- Some parties have taken turns on a machine: what each of them got, and the machine left behind. -/
inductive Interleaved {ι : Type} [DecidableEq ι] (ctx : Context) (P : ι → Party) (m : Machine) :
    (ι → History) → Machine → Prop
  | start : Interleaved ctx P m (fun _ => []) m
  | turn {h : ι → History} {n n' : Machine} {i : ι} {r : Except EvalError Value} {text : String}
    (hn : Interleaved ctx P m h n) (hr : evaluate ctx (P i).root ((P i).next (h i)) n = some (r, n'))
    (ht : n'.printed = n.printed ++ text) :
    Interleaved ctx P m (Function.update h i (h i ++ [(r, text)])) n'

/-- One party alone has taken turns. -/
abbrev Alone (ctx : Context) (p : Party) (m : Machine) (k : History) (n : Machine) : Prop :=
  Interleaved ctx (fun _ : Unit => p) m (fun _ => k) n

theorem Alone.turn {ctx : Context} {p : Party} {m n n' : Machine} {k : History} {r : Except EvalError Value}
    {text : String} (hn : Alone ctx p m k n) (hr : evaluate ctx p.root (p.next k) n = some (r, n'))
    (ht : n'.printed = n.printed ++ text) : Alone ctx p m (k ++ [(r, text)]) n' := by
  have after := Interleaved.turn (i := ()) hn hr ht
  rwa [show Function.update (fun _ : Unit => k) () (k ++ [(r, text)]) = fun _ => k ++ [(r, text)] from
    funext fun _ => Function.update_self _ _ _] at after

/-! ## What a party gets -/

/-- What a party can reach from the start. -/
abbrev Party.world (p : Party) (m : Machine) : World := m.world 1 p.root .nil

/-- A party got what it would have got alone, and what it can reach is as it would be then. -/
structure Undisturbed (ctx : Context) (p : Party) (m n : Machine) (h : History) (W : World) : Prop where
  le : (p.world m).LE W
  alone : ∃ k n', Alone ctx p m k n' ∧ W.Matches n n' ∧ W.Rel h k

namespace Undisturbed

variable {ctx : Context} {p : Party} {m n n' : Machine} {h : History} {W : World} {r : Except EvalError Value}
  {text : String}

theorem root (u : Undisturbed ctx p m n h W) : W.Names .frame p.root p.root :=
  World.Rel.mono (World.names (W := p.world m) (Machine.mem_reach_frame m p.root .nil)) u.le

theorem contexts (u : Undisturbed ctx p m n h W) (hh : ∀ r, ⟨.root, r⟩ ∈ m.reach p.root .nil → r ∈ ctx.held.frames) :
    W.Contexts ctx ctx := by
  refine ⟨rfl, rfl, fun {r} hr => ?_⟩
  have start := u.le.root hr
  rw [u.le.apply start]
  exact ⟨hh r start, hh r start⟩

/-- The next form ends as it would end alone. -/
theorem sameEnd (u : Undisturbed ctx p m n h W) (hh : ∀ r, ⟨.root, r⟩ ∈ m.reach p.root .nil → r ∈ ctx.held.frames) :
    ∃ k n', Alone ctx p m k n' ∧ W.Matches n n' ∧ W.Rel h k ∧
      W.SameEnd n n' (evaluate ctx p.root (p.next h) n) (evaluate ctx p.root (p.next k) n') := by
  obtain ⟨k, n', alone, hm, hk⟩ := u.alone
  exact ⟨k, n', alone, hm, hk, World.evaluate_sameEnd hm (u.contexts hh) u.root (hk.map p.equivariant)⟩

/-- After a turn of its own. -/
theorem turn (u : Undisturbed ctx p m n h W) (hh : ∀ r, ⟨.root, r⟩ ∈ m.reach p.root .nil → r ∈ ctx.held.frames)
    (hr : evaluate ctx p.root (p.next h) n = some (r, n')) (ht : n'.printed = n.printed ++ text) :
    ∃ W', Undisturbed ctx p m n' (h ++ [(r, text)]) W' ∧
      (∀ x ∈ W'.shared, x ∈ W.shared ∨ n.count x.kind ≤ x.index) ∧ n.ChangesWithin W.shared n' := by
  obtain ⟨k, k', alone, hm, hk, same⟩ := u.sameEnd hh
  rw [hr] at same
  generalize hy : evaluate ctx p.root (p.next k) k' = y at same
  cases same with
  | @both W' _ s _ k'' hm' adv hrs =>
    obtain ⟨text', ht', ht''⟩ := adv.output.printed
    obtain rfl : text' = text := (String.append_right_inj n.printed).1 (ht'.symm.trans ht)
    have got : W'.Rel (h ++ [(r, text')]) (k ++ [(s, text')]) :=
      (hk.mono adv.le).append ((hrs.pair (.of_nil rfl rfl)).cons .nil)
    exact ⟨W', ⟨u.le.trans adv.le, _, k'', Alone.turn alone hy ht'', hm', got⟩,
      fun x hx => (adv.fresh hx).imp_right And.left, adv.changes⟩

/-- After a turn of another party. -/
theorem of_changes (u : Undisturbed ctx p m n h W) {S : Set Ref} (hc : n.ChangesWithin S n')
    (hd : Disjoint S W.shared) : Undisturbed ctx p m n' h W := by
  obtain ⟨k, k', alone, hm, hk⟩ := u.alone
  exact ⟨u.le, k, k', alone, hm.of_changes hc hd, hk⟩

theorem bound (u : Undisturbed ctx p m n h W) {x : Ref} (hx : x ∈ W.shared) : x.index < n.count x.kind := by
  obtain ⟨_, _, _, hm, _⟩ := u.alone
  exact (hm.bound hx).1

end Undisturbed

/-- Parties that share nothing stay undisturbed and go on to share nothing. -/
theorem Interleaved.undisturbed {ι : Type} [DecidableEq ι] {ctx : Context} {P : ι → Party} {m n : Machine}
    {h : ι → History} (hI : Interleaved ctx P m h n) (hs : ∀ i, m.Sound (m.reach (P i).root .nil))
    (hh : ∀ i r, ⟨.root, r⟩ ∈ m.reach (P i).root .nil → r ∈ ctx.held.frames)
    (hd : ∀ i j, i ≠ j → Disjoint (m.reach (P i).root .nil) (m.reach (P j).root .nil)) :
    ∃ W : ι → World, (∀ i, Undisturbed ctx (P i) m n (h i) (W i)) ∧
      ∀ i j, i ≠ j → Disjoint (W i).shared (W j).shared := by
  induction hI with
  | start => exact ⟨fun i => (P i).world m, fun i => ⟨.refl _, [], m, .start, hs i, .nil⟩, hd⟩
  | @turn h n n' i r text _ hr ht ih =>
    obtain ⟨W, u, apart⟩ := ih
    obtain ⟨W', u', fresh, changes⟩ := (u i).turn (hh i) hr ht
    -- what is new to the party was not there for the others
    have apart' (j : ι) (hj : j ≠ i) : Disjoint W'.shared (W j).shared := by
      refine Set.disjoint_left.2 fun x hx hxj => ?_
      rcases fresh x hx with hx | hge
      · exact Set.disjoint_left.1 (apart i j hj.symm) hx hxj
      · exact absurd ((u j).bound hxj) (Nat.not_lt.2 hge)
    refine ⟨Function.update W i W', fun j => ?_, fun j k hjk => ?_⟩
    · by_cases hj : j = i
      · subst hj
        simpa only [Function.update_self] using u'
      · simpa only [Function.update_of_ne hj] using (u j).of_changes changes (apart i j (Ne.symm hj))
    · by_cases hj : j = i
      · subst hj
        simpa only [Function.update_self, Function.update_of_ne hjk.symm] using apart' k hjk.symm
      · by_cases hk : k = i
        · subst hk
          simpa only [Function.update_self, Function.update_of_ne hj] using (apart' j hj).symm
        · simpa only [Function.update_of_ne hj, Function.update_of_ne hk] using apart j k hjk

/-! ## New roots -/

namespace Interpreter

/-- What a new root binds refers to nothing but the root. -/
theorem refs_rootBindings {root : FrameId} {x : Ref} (hx : x ∈ refs (rootBindings root)) : x = ⟨.root, root⟩ := by
  obtain ⟨⟨name, v⟩, hb, hx⟩ := List.mem_flatMap.1 hx
  simp only [rootBindings, List.mem_append, List.mem_map, List.mem_singleton] at hb
  rcases hb with (⟨b, -, hb⟩ | ⟨b, -, hb⟩) | hb
  · obtain ⟨rfl, rfl⟩ := Prod.mk.inj hb
    cases hx
  · obtain ⟨rfl, rfl⟩ := Prod.mk.inj hb
    exact List.mem_singleton.1 hx
  · obtain ⟨rfl, rfl⟩ := Prod.mk.inj hb
    cases hx

/-- A root and its handle. -/
def rootWorld (root : FrameId) : World := ⟨1, {⟨.frame, root⟩, ⟨.root, root⟩}⟩

theorem rootWorld_matches (m : Machine) :
    (rootWorld m.frames.size).Matches (m.addFrame (rootBindings m.frames.size) none).2
      (m.addFrame (rootBindings m.frames.size) none).2 where
  bound hx := by
    rcases hx with rfl | rfl <;> simp [rootWorld, Machine.addFrame, Machine.count]
  root hr := by
    rcases hr with hr | hr
    · cases hr
    · obtain ⟨-, rfl⟩ := Ref.mk.inj hr
      exact ⟨.inl rfl, rfl⟩
  frame he := by
    rcases he with he | he
    · obtain ⟨-, rfl⟩ := Ref.mk.inj he
      refine ⟨_, _, Array.getElem?_push_size, Array.getElem?_push_size, ⟨(Refers.rename_one _).symm, fun {x} hx => ?_⟩,
        fun o ho => by cases ho⟩
      rw [show refs (Frame.mk (rootBindings m.frames.size) none) = refs (rootBindings m.frames.size) from
        List.append_nil _] at hx
      exact .inr (refs_rootBindings hx)
    · cases he
  atom ha := by
    rcases ha with ha | ha <;> cases ha

theorem loadPrelude_follows {W : World} {ctx : Context} {root : FrameId} (hc : W.Contexts ctx ctx)
    (hs : W.RootsShared) (hr : W.Names .frame root root) (m n : Machine) :
    Follows ⟨W, m, n, fun _ => True⟩ World.Related W (loadPrelude ctx root) (loadPrelude ctx root) := by
  rw [loadPrelude_of_read? read?_prelude]
  have data := Value.isData_of_read? read?_prelude
  have closed : W.Rel preludeForm preludeForm :=
    .of_nil (Value.refs_of_isData data) (Value.rename_of_isData W.map data)
  exact ((guarded_held W m n).alike ⟨hc, hs⟩ hr closed).bind fun _ _ _ _ =>
    Follows.record hc.akin .debug (World.sameMessage_const _)

/-- Making a root changes nothing that is there, and from the new root nothing can be reached but new things. -/
theorem newRoot_apart (ctx : Context) (m : Machine) :
    ∃ m', newRoot ctx m = some (.ok m.frames.size, m') ∧ m.ChangesWithin ∅ m' ∧
      m'.Sound (m'.reach m.frames.size .nil) ∧ (∀ x ∈ m'.reach m.frames.size .nil, m.count x.kind ≤ x.index) ∧
      ∀ r, ⟨.root, r⟩ ∈ m'.reach m.frames.size .nil → r = m.frames.size := by
  have made := Machine.allocates_addFrame (rootBindings m.frames.size) none
  have hm := rootWorld_matches m
  have hc : (rootWorld m.frames.size).Contexts (ctx.holdFrame m.frames.size) (ctx.holdFrame m.frames.size) := by
    refine ⟨rfl, rfl, fun {r} hr => ?_⟩
    rcases hr with hr | hr
    · cases hr
    · obtain ⟨-, rfl⟩ := Ref.mk.inj hr
      exact ⟨List.mem_cons_self, List.mem_cons_self⟩
  have hroot : (rootWorld m.frames.size).Names .frame m.frames.size m.frames.size := World.names (.inl rfl)
  obtain ⟨m', loaded, -⟩ := loadPrelude_eq (n := (m.addFrame (rootBindings m.frames.size) none).2)
    Array.getElem?_push_size (ctx.holdFrame m.frames.size)
  obtain ⟨W, s, n, hn, hl, le, -⟩ := loadPrelude_follows hc hm.rootsShared hroot _ _ _ _ _ _
    ⟨hm.agrees, .refl _ _ _⟩ loaded fun _ => trivial
  have hm' := hl.agrees.matches (hm.rootsShared.mono le)
  have adv := hl.since.toAdvances
  have within : m'.reach m.frames.size .nil ⊆ W.shared := fun x hx => hx.mem hm'.left fun y hy => by
    rcases hy with rfl | hy
    · exact adv.le.shared hroot.mem
    · cases hy
  have start {x : Ref} (hx : x ∈ (rootWorld m.frames.size).shared) : m.count x.kind ≤ x.index := by
    rcases hx with rfl | rfl <;> exact Nat.le_refl _
  refine ⟨m', newRoot_of_loadPrelude loaded,
    (made.changes m).trans adv.changes fun hx hi => absurd hi (Nat.not_lt.2 (start hx)), hm'.left.reach within,
    fun x hx => ?_, fun r hr => ?_⟩
  · rcases adv.fresh (within hx) with hx | ⟨hge, -⟩
    · exact start hx
    · exact ((made.changes m).count _).trans hge
  · rcases adv.le.root (within hr) with hr | hr
    · cases hr
    · exact (Ref.mk.inj hr).2

end Interpreter

/-! ## What evaluation depends on and what it changes -/

/-- **Evaluation keeps to its reach.** Take two machines that agree on all that can be reached from a form in a frame,
under whatever names, with the same files, and the roots of all rooted builtins that can be reached held. Then the form
is evaluated alike in both: without end in both, or with outcomes and output that correspond and such that all that
could be reached or is new corresponds again; and in either machine nothing else changes. Hence parties in roots that
reach nothing in common get what they get alone, in whatever order they take turns. And a new root reaches nothing in
common with what is there. -/
theorem evaluation_keeps_to_its_reach :
    (∀ (f : Renaming) (m n : Machine) (ctx ctx' : Context) (e : FrameId) (form : Value),
      (m.world f e form).Matches m n → (m.world f e form).Contexts ctx ctx' →
        (m.world f e form).image = n.reach (f .frame e) (rename f form) ∧
          (m.world f e form).SameEnd m n (evaluate ctx e form m)
            (evaluate ctx' (f .frame e) (rename f form) n)) ∧
    (∀ (ι : Type) [DecidableEq ι] (ctx : Context) (P : ι → Party) (m n : Machine) (h : ι → History),
      (∀ i, m.Sound (m.reach (P i).root .nil)) →
      (∀ i r, ⟨.root, r⟩ ∈ m.reach (P i).root .nil → r ∈ ctx.held.frames) →
      (∀ i j, i ≠ j → Disjoint (m.reach (P i).root .nil) (m.reach (P j).root .nil)) →
      Interleaved ctx P m h n →
        ∀ i, ∃ W k n', ((P i).world m).LE W ∧ Alone ctx (P i) m k n' ∧ W.Matches n n' ∧ W.Rel (h i) k ∧
          W.SameEnd n n' (evaluate ctx (P i).root ((P i).next (h i)) n) (evaluate ctx (P i).root ((P i).next k) n')) ∧
    ∀ (ctx : Context) (m : Machine), ∃ m', Interpreter.newRoot ctx m = some (.ok m.frames.size, m') ∧
      m'.Sound (m'.reach m.frames.size .nil) ∧
      (∀ r, ⟨.root, r⟩ ∈ m'.reach m.frames.size .nil → r = m.frames.size) ∧
      ∀ (e : FrameId) (form : Value), m.Sound (m.reach e form) →
        m'.reach e form = m.reach e form ∧ m'.Sound (m'.reach e form) ∧
          Disjoint (m'.reach e form) (m'.reach m.frames.size .nil) := by
  refine ⟨fun f m n ctx ctx' e form hm hc => ⟨World.image_reach hm, ?_⟩,
    fun ι _ ctx P m n h hs hh hd hI i => ?_, fun ctx m => ?_⟩
  · have he : (m.world f e form).Names .frame e (f .frame e) := World.names (Machine.mem_reach_frame m e form)
    exact World.evaluate_sameEnd hm hc he ⟨rfl, fun hx => Machine.mem_reach_form hx m e⟩
  · obtain ⟨W, u, -⟩ := hI.undisturbed hs hh hd
    obtain ⟨k, n', alone, hm, hk, same⟩ := (u i).sameEnd (hh i)
    exact ⟨W i, k, n', (u i).le, alone, hm, hk, same⟩
  · obtain ⟨m', made, changes, sound, new, roots⟩ := Interpreter.newRoot_apart ctx m
    refine ⟨m', made, sound, roots, fun e form hs => ?_⟩
    have kept := hs.reach_eq changes (Set.empty_disjoint _)
    rw [kept]
    refine ⟨rfl, hs.of_changes changes (Set.empty_disjoint _), Set.disjoint_left.2 fun x hx hx' => ?_⟩
    exact absurd (hs.bound hx).1 (Nat.not_lt.2 (new x hx'))

/-! ### Two roots, each with a cell -/

/-- A root with a cell of its own. -/
def cellRoot (a : AtomId) : Frame := ⟨[("reset!", .builtin .reset), ("cell", .atom a)], none⟩

/-- Two roots that share nothing, and what their cells hold. -/
def twins (v w : Value) (closures : ClosureId) : Machine := ⟨#[cellRoot 0, cellRoot 1], #[v, w], closures, "", #[]⟩

/-- Puts into the cell a closure that leads back to the cell. -/
def keepForm : Value := .list [.symbol "reset!", .symbol "cell", .list [.symbol "fn*", .list [], .symbol "cell"]]

theorem isData_keepForm : keepForm.IsData := by
  have word (name : String) : (Value.symbol name).IsData := .symbol name
  have function : (Value.list [.symbol "fn*", .list [], .symbol "cell"]).IsData :=
    .list (by simp [word, Value.IsData.list])
  exact .list (by simp [word, function])

/-- The closure that a root keeps in its cell. -/
def keptBy (e : FrameId) (id : ClosureId) : Value := .closure id ⟨[], none⟩ (.symbol "cell") e false

def twinsHeld : Context := ⟨fun _ => .error .notFound, none, ⟨[0, 1], []⟩⟩

def twinParty (second : Bool) : Party where
  root := if second then 1 else 0
  next _ := keepForm
  equivariant f _ := (Value.rename_of_isData f isData_keepForm).symm

theorem twins_matches {f : Renaming} {i : Nat} (hi : i < 2) (hf : f .frame i < 2) (ha : f .atom i = f .frame i) :
    (World.mk f {⟨.frame, i⟩, ⟨.atom, i⟩}).Matches (twins .nil .nil 0) (twins .nil .nil 0) where
  bound hx := by
    rcases hx with rfl | rfl
    · exact ⟨hi, hf⟩
    · exact ⟨hi, ha.trans_lt hf⟩
  root hr := by rcases hr with hr | hr <;> cases hr
  frame he := by
    obtain ⟨-, rfl⟩ := Ref.mk.inj (he.resolve_right fun h => by cases h)
    have there {j : Nat} (hj : j < 2) : (twins .nil .nil 0).frames[j]? = some (cellRoot j) := by
      match j, hj with
      | 0, _ => rfl
      | 1, _ => rfl
    refine ⟨_, _, there hi, there hf, ⟨by rw [← ha]; rfl, fun {x} hx => ?_⟩, fun o ho => by cases ho⟩
    exact .inr (List.mem_singleton.1 hx)
  atom {a} _ := by
    have empty {j : Nat} : (twins .nil .nil 0).atomValue j = .nil := by
      match j with
      | 0 => rfl
      | 1 => rfl
      | j + 2 => rfl
    rw [empty, empty]
    exact .of_nil rfl rfl

theorem twins_reach {i : Nat} (hi : i < 2) {form : Value} (hd : form.IsData) :
    (twins .nil .nil 0).reach i form ⊆ {⟨.frame, i⟩, ⟨.atom, i⟩} := fun x hx => by
  refine hx.mem (twins_matches (f := 1) hi hi rfl) fun y hy => ?_
  rcases hy with rfl | hy
  · exact .inl rfl
  · rw [Value.refs_of_isData hd] at hy
    cases hy

/-- Each root keeps a closure in its cell: in either order of names alike, one after the other as alone, and a further
root shares nothing with them. -/
theorem evaluation_keeps_to_its_reach_twins :
    let swapped : Renaming := fun _ => Equiv.swap 0 1
    let m := twins .nil .nil 0
    (m.world swapped 0 keepForm).Matches m m ∧ (m.world swapped 0 keepForm).Contexts twinsHeld twinsHeld ∧
      (m.world swapped 0 keepForm).SameEnd m m (evaluate twinsHeld 0 keepForm m) (evaluate twinsHeld 1 keepForm m) ∧
      (∃ h, Interleaved twinsHeld twinParty m h (twins (keptBy 0 0) (keptBy 1 1) 2) ∧
        ∀ i, ∃ (W : World) (k : History) (n' : Machine), Alone twinsHeld (twinParty i) m k n' ∧
          W.Matches (twins (keptBy 0 0) (keptBy 1 1) 2) n' ∧ W.Rel (h i) k) ∧
      ∃ m', Interpreter.newRoot twinsHeld m = some (.ok 2, m') ∧ Disjoint (m'.reach 0 .nil) (m'.reach 2 .nil) := by
  intro swapped m
  have inside {i : Nat} (hi : i < 2) {r : FrameId} {form : Value} (hd : form.IsData)
      (hr : ⟨.root, r⟩ ∈ m.reach i form) : False := by
    rcases twins_reach hi hd hr with hr | hr <;> cases hr
  have hm : (m.world swapped 0 keepForm).Matches m m :=
    (twins_matches (f := swapped) (by decide) (by decide) rfl).reach (twins_reach (by decide) isData_keepForm)
  have hc : (m.world swapped 0 keepForm).Contexts twinsHeld twinsHeld :=
    ⟨rfl, rfl, fun hr => (inside (by decide) isData_keepForm hr).elim⟩
  have sound {i : Nat} (hi : i < 2) : m.Sound (m.reach i .nil) :=
    (twins_matches (f := 1) hi hi rfl).reach (twins_reach hi .nil)
  have place (i : Bool) : (twinParty i).root < 2 := by cases i <;> decide
  have apart (i j : Bool) (hij : i ≠ j) :
      Disjoint (m.reach (twinParty i).root .nil) (m.reach (twinParty j).root .nil) := by
    refine Set.disjoint_left.2 fun x hx hx' => hij ?_
    rcases twins_reach (place i) .nil hx with rfl | rfl <;> rcases twins_reach (place j) .nil hx' with h | h <;>
      cases i <;> cases j <;> cases h <;> rfl
  obtain ⟨alike, parties, roots⟩ := evaluation_keeps_to_its_reach
  refine ⟨hm, hc, ?_, ?_, ?_⟩
  · have same := (alike swapped m m twinsHeld twinsHeld 0 keepForm hm hc).2
    rwa [Value.rename_of_isData swapped isData_keepForm] at same
  · have first : evaluate twinsHeld 0 keepForm m = some (.ok (keptBy 0 0), twins (keptBy 0 0) .nil 1) :=
      evaluate_of_evalWithin 2 _ _ _ _ _ rfl
    have second : evaluate twinsHeld 1 keepForm (twins (keptBy 0 0) .nil 1) =
        some (.ok (keptBy 1 1), twins (keptBy 0 0) (keptBy 1 1) 2) := evaluate_of_evalWithin 2 _ _ _ _ _ rfl
    have quiet : "" = "" ++ "" := rfl
    have turns : Interleaved twinsHeld twinParty m _ (twins (keptBy 0 0) (keptBy 1 1) 2) :=
      .turn (i := true) (.turn (i := false) .start first quiet) second quiet
    refine ⟨_, turns, fun i => ?_⟩
    obtain ⟨W, k, n', -, alone, hm', hk, -⟩ := parties Bool twinsHeld twinParty m _ _ (fun i => sound (place i))
      (fun i r hr => (inside (place i) .nil hr).elim) apart turns i
    exact ⟨W, k, n', alone, hm', hk⟩
  · obtain ⟨m', made, -, -, apart⟩ := roots twinsHeld m
    exact ⟨m', made, (apart 0 .nil (sound (by decide))).2.2⟩

end MiniLisp

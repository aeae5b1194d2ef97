import MiniLisp.Proofs.Builtins
import MiniLisp.Proofs.Semantics

/-!
# Trace records do not matter

Nothing that a run does depends on the records made before it. So machines that differ in their trace records only stay
such machines, whatever is evaluated in both (`evaluate_untraced`).

* `Run.IgnoresRecords`: a run that neither looks at records nor makes any.
* `Machine.untraced`: the machine without its trace records.
* `Context.Agree`: outcomes that are the same but for trace records.
-/

namespace MiniLisp

namespace Machine

/-- The machine with other records. -/
def withRecords (m : Machine) (rs : Array Record) : Machine := { m with records := rs }

/-- The machine without its trace records. -/
def untraced (m : Machine) : Machine := m.withRecords (m.records.filter fun r => r.level ≠ .trace)

/-! ## What can be seen without records -/

variable (m : Machine) (rs : Array Record)

/-- Records are not looked up. -/
theorem lookup_withRecords (e : FrameId) (name : String) : (m.withRecords rs).lookup e name = m.lookup e name := by
  have within : ∀ steps e, (m.withRecords rs).lookupWithin name steps e = m.lookupWithin name steps e := by
    intro steps
    induction steps with
    | zero => intro e; rfl
    | succ steps ih =>
      intro e
      simp only [lookupWithin, ih]
      rfl
  exact within (e + 1) e

theorem macroCall?_withRecords (e : FrameId) (form : Value) :
    (m.withRecords rs).macroCall? e form = m.macroCall? e form := by
  unfold macroCall?
  split
  · rw [lookup_withRecords]
  · rfl

/-- What atoms print depends on the atoms alone. -/
theorem contents_of_atoms_eq {m n : Machine} (h : n.atoms = m.atoms) (mode : Mode) :
    n.contents mode = m.contents mode := by
  have within : ∀ depth, n.contentsWithin mode depth = m.contentsWithin mode depth := by
    intro depth
    induction depth with
    | zero => rfl
    | succ depth ih =>
      funext a
      simp only [contentsWithin, atomValue, ih, h]
  funext a
  rw [contents, h, within, contents]

theorem contents_withRecords (mode : Mode) : (m.withRecords rs).contents mode = m.contents mode :=
  contents_of_atoms_eq (m := m) (n := m.withRecords rs) rfl mode

theorem text?_withRecords (mode : Mode) (v : Value) : (m.withRecords rs).text? mode v = m.text? mode v := by
  unfold text?
  rw [contents_withRecords]

/-- A record keeps no root alive. -/
theorem isAlive_withRecords (held : Holds) (e : FrameId) :
    (m.withRecords rs).isAlive held e = m.isAlive held e := by
  have chain : ∀ steps e, (m.withRecords rs).chainWithin steps e = m.chainWithin steps e := by
    intro steps
    induction steps with
    | zero => intro e; rfl
    | succ steps ih =>
      intro e
      simp only [chainWithin, ih]
      rfl
  have sweep : ∀ rounds s, (m.withRecords rs).sweep held rounds s = m.sweep held rounds s := by
    intro rounds
    induction rounds with
    | zero => intro s; rfl
    | succ rounds ih =>
      intro s
      simp only [sweep, ih]
      rfl
  simp only [isAlive, Machine.chain, chain, survivors, sweep]
  rfl

/-! ## Machines that differ in trace records -/

variable {m rs} {n : Machine}

/-- Machines that agree up to trace records differ in their records only, and there in trace records only. -/
theorem untraced_eq_iff : n.untraced = m.untraced ↔ n = m.withRecords n.records ∧
    (n.records.filter fun r => r.level ≠ .trace) = m.records.filter fun r => r.level ≠ .trace := by
  obtain ⟨frames, atoms, closures, printed, records⟩ := n
  obtain ⟨frames', atoms', closures', printed', records'⟩ := m
  simp only [untraced, withRecords, Machine.mk.injEq, and_true, and_assoc]

/-- Agreement up to trace records is carried along by records alone. -/
theorem untraced_withRecords (h : n.untraced = m.untraced) (m' : Machine) :
    (m'.withRecords n.records).untraced = (m'.withRecords m.records).untraced := by
  unfold untraced
  rw [show (m'.withRecords n.records).records = n.records from rfl, (untraced_eq_iff.1 h).2]
  rfl

/-- A record made in both machines makes no difference. -/
theorem untraced_addRecord (h : n.untraced = m.untraced) (level : Level) (message : String) :
    (n.addRecord level message).untraced = (m.addRecord level message).untraced := by
  obtain ⟨hn, hr⟩ := untraced_eq_iff.1 h
  refine untraced_eq_iff.2 ⟨?_, ?_⟩
  · rw [hn]
    rfl
  · simp only [addRecord, Array.filter_push, hr]

/-- A trace record makes no difference. -/
theorem untraced_addTrace (m : Machine) (message : String) : (m.addRecord .trace message).untraced = m.untraced := by
  refine untraced_eq_iff.2 ⟨rfl, ?_⟩
  simp [addRecord]

end Machine

namespace Run

variable {α β : Type}

/-! ## Runs that have nothing to do with records -/

/-- A run that neither looks at records nor makes any. -/
def IgnoresRecords (x : Run α) : Prop :=
  ∀ (m : Machine) (rs : Array Record), x (m.withRecords rs) = (x m).map fun r => (r.1, r.2.withRecords rs)

theorem ignores_pure (a : α) : IgnoresRecords (Run.pure a) := fun _ _ => rfl

theorem ignores_fail (fault : EvalError) : IgnoresRecords (Run.fail fault : Run α) := fun _ _ => rfl

theorem ignores_ofExcept (x : Except EvalError α) : IgnoresRecords (Run.ofExcept x) := fun _ _ => rfl

/-- A reading ignores the records when what it reads does. -/
theorem ignores_gets {f : Machine → α} (h : ∀ m rs, f (m.withRecords rs) = f m) : IgnoresRecords (Run.gets f) := by
  intro m rs
  simp only [Run.gets, h m rs]
  rfl

theorem ignores_gets? {f : Machine → Option α} (h : ∀ m rs, f (m.withRecords rs) = f m) :
    IgnoresRecords (Run.gets? f) := by
  intro m rs
  simp only [Run.gets?, h m rs]
  cases f m <;> rfl

/-- Joined arguments do not look at the records. -/
theorem ignores_joined (mode : Mode) (between : String) (args : List Value) :
    IgnoresRecords (Run.joined mode between args) :=
  ignores_gets? fun m rs => by simp only [Machine.text?_withRecords]

/-! ## Runs on machines that differ in trace records -/

/-- Where trace records differ at the start, the outcome is the same up to trace records. -/
abbrev Untraced (α : Type) (m : Machine) (r : Except EvalError α × Machine) (y : Run α) : Prop :=
  ∀ n : Machine, n.untraced = m.untraced → ∃ n', y n = some (r.1, n') ∧ n'.untraced = r.2.untraced

/-- A run that ignores the records does the same before machines that differ in them. -/
theorem IgnoresRecords.simulated {x : Run α} (h : IgnoresRecords x) : Simulated Untraced x x := by
  intro m r hr n hn
  have own : r.2 = r.2.withRecords m.records := by
    have again := h m m.records
    rw [show m.withRecords m.records = m from rfl, hr] at again
    exact congrArg Prod.snd (Option.some.inj again)
  refine ⟨r.2.withRecords n.records, ?_, ?_⟩
  · rw [(Machine.untraced_eq_iff.1 hn).1, h m n.records, hr]
    rfl
  · rw [Machine.untraced_withRecords hn, ← own]

/-- Runs in sequence agree up to trace records when their parts do. -/
theorem untraced_bind {x y : Run α} {f g : α → Run β} (h : Simulated Untraced x y)
    (hf : ∀ a, Simulated Untraced (f a) (g a)) : Simulated Untraced (Run.bind x f) (Run.bind y g) := by
  intro m r hr n hn
  rcases bind_eq_some hr with ⟨fault, m₁, hx, rfl⟩ | ⟨a, m₁, hx, hr⟩
  · obtain ⟨n₁, hy, hn₁⟩ := h m _ hx n hn
    exact ⟨n₁, bind_error hy, hn₁⟩
  · obtain ⟨n₁, hy, hn₁⟩ := h m _ hx n hn
    rw [bind_ok hy]
    exact hf a m₁ r hr n₁ hn₁

/-- A record is made on both sides or is a trace record. -/
theorem untraced_record (ctx : Context) (level : Level) (message : Message) :
    Simulated Untraced (Run.record ctx level message) (Run.record ctx level message) := by
  unfold Run.record
  split
  · refine untraced_bind (ignores_gets? fun m rs => ?_).simulated fun t m r hr n hn => ?_
    · rw [Machine.contents_withRecords]
    · cases hr
      exact ⟨n.addRecord level t, rfl, Machine.untraced_addRecord hn level t⟩
  · exact (ignores_pure ()).simulated

/-- A run with its outcome recorded agrees with itself up to trace records. -/
theorem untraced_observe {x : Run α} {f : α → Run Unit} {g : EvalError → Run Unit} (h : Simulated Untraced x x)
    (hf : ∀ a, Simulated Untraced (f a) (f a)) (hg : ∀ fault, Simulated Untraced (g fault) (g fault)) :
    Simulated Untraced (Run.observe x f g) (Run.observe x f g) := by
  intro m r hr n hn
  rcases observe_eq_some hr with ⟨fault, m₁, hx, hr⟩ | ⟨a, m₁, hx, hr⟩
  · obtain ⟨n₁, hy, hn₁⟩ := h m _ hx n hn
    rw [observe_error hy]
    exact untraced_bind (hg fault) (fun _ => (ignores_fail fault).simulated) m₁ r hr n₁ hn₁
  · obtain ⟨n₁, hy, hn₁⟩ := h m _ hx n hn
    rw [observe_ok hy]
    exact untraced_bind (hf a) (fun _ => (ignores_pure a).simulated) m₁ r hr n₁ hn₁

/-- Builtins do not depend on trace records. -/
theorem kept_untraced (ctx : Context) : Kept (fun _ x => Simulated Untraced x x) ctx where
  ofExcept x := (ignores_ofExcept x).simulated
  bind := untraced_bind
  observe := untraced_observe
  record := untraced_record ctx
  joined mode between args := (ignores_joined mode between args).simulated
  printLine _ := IgnoresRecords.simulated fun _ _ => rfl
  addAtom _ := IgnoresRecords.simulated fun _ _ => rfl
  atomValue _ := IgnoresRecords.simulated fun _ _ => rfl
  setAtom _ _ := IgnoresRecords.simulated fun _ _ => rfl

end Run

/-! ## Evaluation -/

/-- Agreement up to trace records is a simulation. -/
theorem simulation_untraced : Simulation Run.Untraced Eq where
  pure a := (Run.ignores_pure a).simulated
  fail fault := (Run.ignores_fail fault).simulated
  bind := Run.untraced_bind
  macroCall e form := (Run.ignores_gets fun m rs => m.macroCall?_withRecords rs e form).simulated
  lookup e name := (Run.ignores_gets fun m rs => m.lookup_withRecords rs e name).simulated
  atomValue _ := (Run.ignores_gets fun _ _ => rfl).simulated
  addFrame bs outer := Run.IgnoresRecords.simulated fun _ _ => rfl
  newClosure := Run.IgnoresRecords.simulated fun _ _ => rfl
  bindName _ _ _ := Run.IgnoresRecords.simulated fun _ _ => rfl
  record h level message := h ▸ Run.untraced_record _ level message
  builtin h b args := h ▸ (Run.kept_untraced _).builtin b args
  alive {ctx ctx'} _ _ _ h root name hx := by
    subst h
    refine Run.untraced_bind (Run.ignores_gets fun m rs => m.isAlive_withRecords rs ctx.held root).simulated fun a => ?_
    cases a with
    | false => exact (Run.ignores_fail _).simulated
    | true => exact hx
  holdFrame h _ := by rw [h]
  holdItems h _ := by rw [h]

/-- Evaluation does not depend on trace records, and what it does is the same up to trace records. -/
theorem evaluate_untraced {ctx : Context} {e : FrameId} {form : Value} {m m' n : Machine} {r : Except EvalError Value}
    (h : evaluate ctx e form m = some (r, m')) (hn : n.untraced = m.untraced) :
    ∃ n', evaluate ctx e form n = some (r, n') ∧ n'.untraced = m'.untraced :=
  simulation_untraced.evaluate rfl e form m (r, m') h n hn

/-! ## Records that are made on the way -/

/-- Whether the print of every atom ends. -/
def Machine.Prints (m : Machine) : Prop := ∀ a, (m.contents .readable a).isSome = true

/-- That every atom prints depends on the atoms alone. -/
theorem Machine.Prints.of_atoms_eq {m n : Machine} (hp : m.Prints) (h : n.atoms = m.atoms) : n.Prints := fun a => by
  rw [contents_of_atoms_eq h]
  exact hp a

mutual

/-- A value prints when every atom does. -/
theorem render_isSome {contents : AtomId → Option (List Char)} (h : ∀ a, (contents a).isSome = true) (mode : Mode) :
    ∀ v : Value, (v.render mode contents).isSome = true
  | .list xs | .vector xs => by
    simp only [Value.render, Option.isSome_map]
    exact renderItems_isSome h mode xs
  | .map es => by
    simp only [Value.render, Option.isSome_map]
    exact renderEntries_isSome h mode es
  | .atom a => by
    simp only [Value.render, Option.isSome_map]
    exact h a
  | .nil | .bool _ | .int _ | .float _ | .text _ | .symbol _ | .keyword _ | .builtin _ | .rooted _ _
  | .closure _ _ _ _ _ => rfl

theorem renderItems_isSome {contents : AtomId → Option (List Char)} (h : ∀ a, (contents a).isSome = true)
    (mode : Mode) : ∀ xs : List Value, (Value.renderItems mode contents xs).isSome = true
  | [] => rfl
  | x :: xs => by
    obtain ⟨t, ht⟩ := Option.isSome_iff_exists.1 (render_isSome h mode x)
    obtain ⟨ts, hts⟩ := Option.isSome_iff_exists.1 (renderItems_isSome h mode xs)
    rw [Value.renderItems, ht, hts]
    rfl

theorem renderEntries_isSome {contents : AtomId → Option (List Char)} (h : ∀ a, (contents a).isSome = true)
    (mode : Mode) : ∀ es : List (Key × Value), (Value.renderEntries mode contents es).isSome = true
  | [] => rfl
  | (k, x) :: es => by
    obtain ⟨t, ht⟩ := Option.isSome_iff_exists.1 (render_isSome h mode x)
    obtain ⟨ts, hts⟩ := Option.isSome_iff_exists.1 (renderEntries_isSome h mode es)
    rw [Value.renderEntries, ht, hts]
    rfl

end

/-- A message that ends wherever the prints of atoms end. -/
def Message.Total (message : Message) : Prop :=
  ∀ contents : AtomId → Option (List Char), (∀ a, (contents a).isSome = true) → (message contents).isSome = true

/-- A message with a value in it has a text wherever every atom prints. -/
theorem total_value (what : String) (v : Value) : (Message.value what v).Total := by
  intro contents h
  rw [Message.value, Option.isSome_map]
  exact render_isSome h .readable v

theorem total_joined (between : String) (args : List Value) : (Message.joined between args).Total := by
  intro contents h
  have all : (args.mapM (Value.render .readable contents)).isSome = true := by
    induction args with
    | nil => rfl
    | cons v args ih =>
      obtain ⟨t, ht⟩ := Option.isSome_iff_exists.1 (render_isSome h .readable v)
      obtain ⟨ts, hts⟩ := Option.isSome_iff_exists.1 ih
      rw [List.mapM_cons, ht, hts]
      rfl
  rw [Message.joined, Option.isSome_map]
  exact all

/-- The text of the arguments of a call. -/
theorem total_argsText : ∀ args : List Value, (Call.argsText args).Total
  | [] => fun _ _ => rfl
  | [v] => total_value "" v
  | v :: w :: args => by
    intro contents h
    have joined := total_joined "\n\t" (v :: w :: args) contents h
    exact Option.isSome_map.trans joined

theorem total_call {what : Message} (hw : what.Total) (args : List Value) : (Call.callText what args).Total := by
  intro contents h
  obtain ⟨s, hs⟩ := Option.isSome_iff_exists.1 (hw contents h)
  obtain ⟨t, ht⟩ := Option.isSome_iff_exists.1 (total_argsText args contents h)
  rw [Call.callText, hs, ht]
  rfl

theorem total_callText (name : String) (args : List Value) : (Call.callText (fun _ => some name) args).Total :=
  total_call (fun _ _ => rfl) args

/-- The text of a closure that is called. -/
theorem total_closureText (params : Params) (body : Value) (isMacro : Bool) :
    (Call.closureText params body isMacro).Total := fun contents h =>
  Option.isSome_map.trans (total_value _ body contents h)

/-- The message of every fault, among them the one that carries a thrown value. -/
theorem total_message (fault : EvalError) : Message.Total fun contents => fault.message contents := by
  intro contents h
  cases fault with
  | thrown payload => exact Option.isSome_map.trans (render_isSome h .readable payload)
  | badMap fault => cases fault <;> rfl
  | _ => rfl

namespace Context

/-- Machines that agree, but for their trace records if such records are wanted. -/
def Alike (ctx : Context) (n m : Machine) : Prop :=
  if ctx.records .trace then n.untraced = m.untraced else n = m

variable {ctx : Context} {n m m' : Machine}

theorem Alike.refl (ctx : Context) (m : Machine) : ctx.Alike m m := by
  unfold Alike
  split <;> rfl

/-- Being alike up to trace records is passed on. -/
theorem Alike.trans {k : Machine} (h : ctx.Alike k n) (h' : ctx.Alike n m) : ctx.Alike k m := by
  unfold Alike at h h' ⊢
  split at h
  · next ht =>
    rw [if_pos ht] at h' ⊢
    exact h.trans h'
  · next ht =>
    rw [if_neg ht] at h' ⊢
    exact h.trans h'

/-- A machine that is alike differs in its records only. -/
theorem Alike.eq_withRecords (h : ctx.Alike n m) : n = m.withRecords n.records := by
  unfold Alike at h
  split at h
  · exact (Machine.untraced_eq_iff.1 h).1
  · rw [h]
    rfl

/-- What an evaluation comes to from one machine it comes to from every machine that is alike. -/
theorem Alike.evaluate {e : FrameId} {form v : Value} (h : ctx.Alike n m)
    (hv : evaluate ctx e form m = some (.ok v, m')) :
    ∃ n', MiniLisp.evaluate ctx e form n = some (.ok v, n') ∧ ctx.Alike n' m' := by
  unfold Alike at h
  split at h
  · next ht =>
    obtain ⟨n', hn, hn'⟩ := evaluate_untraced hv h
    exact ⟨n', hn, by rwa [Alike, if_pos ht]⟩
  · exact ⟨m', h ▸ hv, .refl ctx m'⟩

/-- A trace record can be made and leaves the machine alike, if its message ends where such records are wanted. -/
theorem record_alike_of_isSome {message : Message}
    (h : ctx.records .trace = true → (message (n.contents .readable)).isSome = true) :
    ∃ n', Recorded ctx .trace message n n' ∧ ctx.Alike n' n := by
  unfold Recorded Run.record Alike
  cases hr : ctx.records .trace with
  | false => exact ⟨n, rfl, rfl⟩
  | true =>
    obtain ⟨t, hm⟩ := Option.isSome_iff_exists.1 (h hr)
    refine ⟨n.addRecord .trace t, ?_, Machine.untraced_addTrace n t⟩
    simp only [if_true, Run.bind, Run.gets?, hm]
    rfl

/-- A trace record leads to a machine that is alike, if the message has a text. -/
theorem record_alike {message : Message} (ht : message.Total) (hp : ctx.records .trace = true → n.Prints) :
    ∃ n', Recorded ctx .trace message n n' ∧ ctx.Alike n' n := record_alike_of_isSome fun hr => ht _ (hp hr)

/-! ## Outcomes but for trace records -/

/-- Outcomes that agree: neither run ends, or both end in the same way, with machines that agree. -/
def Agree {α : Type} (ctx : Context) (x y : Option (α × Machine)) : Prop :=
  Option.Rel (fun r s => r.1 = s.1 ∧ ctx.Alike r.2 s.2) x y

theorem Agree.refl {α : Type} (ctx : Context) (x : Option (α × Machine)) : ctx.Agree x x := by
  cases x with
  | none => exact .none
  | some r => exact .some ⟨rfl, .refl ctx r.2⟩

/-- A run that does not depend on trace records, on machines that agree. -/
theorem Alike.agree {α : Type} {x : Run α} (hx : Run.Simulated Run.Untraced x x) (h : ctx.Alike n m) :
    ctx.Agree (x n) (x m) := by
  unfold Alike at h
  split at h
  · next ht =>
    have alike {k k' : Machine} (hk : k.untraced = k'.untraced) : ctx.Alike k k' := by rwa [Alike, if_pos ht]
    cases hm : x m with
    | some r =>
      obtain ⟨n', hn, hn'⟩ := hx m r hm n h
      rw [hn]
      exact .some ⟨rfl, alike hn'⟩
    | none =>
      cases hn : x n with
      | none => exact .none
      | some r =>
        obtain ⟨m', hm', -⟩ := hx n r hn m h.symm
        rw [hm] at hm'
        cases hm'
  · rw [h]
    exact .refl ctx _

/-- Agreement of outcomes up to trace records is passed on. -/
theorem Agree.trans {α : Type} {x y z : Option (α × Machine)} (h : ctx.Agree x y) (h' : ctx.Agree y z) :
    ctx.Agree x z := by
  unfold Agree at h h' ⊢
  cases h with
  | none => exact h'
  | some h =>
    cases h' with
    | some h' => exact .some ⟨h.1.trans h'.1, h.2.trans h'.2⟩

/-- Runs that agree up to a point agree if they go on to agree there. -/
theorem Agree.bind {α β : Type} {x y : Run α} {f g : α → Run β} (h : ctx.Agree (x n) (y m))
    (hf : ∀ a n' m', y m = some (.ok a, m') → ctx.Alike n' m' → ctx.Agree (f a n') (g a m')) :
    ctx.Agree (Run.bind x f n) (Run.bind y g m) := by
  unfold Run.bind
  unfold Agree at h
  generalize x n = r at h
  generalize hy : y m = s at h
  cases h with
  | none => exact .none
  | @some r s h =>
    obtain ⟨r, n'⟩ := r
    obtain ⟨s, m'⟩ := s
    obtain ⟨rfl, alike⟩ := h
    cases r with
    | error fault => exact .some ⟨rfl, alike⟩
    | ok a => exact hf a n' m' hy alike

end Context

end MiniLisp

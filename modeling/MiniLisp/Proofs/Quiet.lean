import Mathlib
import MiniLisp.Proofs.Adequacy
import MiniLisp.Proofs.Data
import MiniLisp.Proofs.Trace

/-!
# Forms that change nothing but records

A form that calls builtins on data, and these change nothing, comes to its outcome whatever the records are, and makes
records at most (`Comes`). The records tell of data only, so that each of them can be made.

* `Machine.Like`: the machine with other records.
* `comes_builtin`: a call of a builtin by its name.
* `comes_call_error`: a call one of whose operands fails.
-/

namespace MiniLisp

/-! ## Machines that differ in their records -/

namespace Machine

/-- The machine with other records, perhaps. -/
def Like (n m : Machine) : Prop := ∃ rs, n = m.withRecords rs

variable {k m n : Machine}

theorem Like.refl (m : Machine) : m.Like m := ⟨m.records, rfl⟩

theorem Like.trans (h : k.Like n) (h' : n.Like m) : k.Like m := by
  obtain ⟨rs, rfl⟩ := h
  obtain ⟨rs', rfl⟩ := h'
  exact ⟨rs, rfl⟩

theorem Like.frames_eq (h : n.Like m) : n.frames = m.frames := by
  obtain ⟨rs, rfl⟩ := h
  rfl

/-- Machines that differ in their records look up the same. -/
theorem Like.lookup_eq (h : n.Like m) (e : FrameId) (name : String) : n.lookup e name = m.lookup e name := by
  obtain ⟨rs, rfl⟩ := h
  exact m.lookup_withRecords rs e name

/-- A new frame in each leaves them alike. -/
theorem Like.addFrame (h : n.Like m) (bs : Bindings) (outer : Option FrameId) :
    (n.addFrame bs outer).2.Like (m.addFrame bs outer).2 := by
  obtain ⟨rs, rfl⟩ := h
  exact ⟨rs, rfl⟩

end Machine

/-! ## Records that can always be made -/

/-- A message that ends whatever atoms hold. -/
def Message.Ends (message : Message) : Prop := ∀ contents, (message contents).isSome = true

theorem ends_text (s : String) : Message.Ends fun _ => some s := fun _ => rfl

/-- Data prints in every machine, so messages with data in them always have a text. -/
theorem ends_value {v : Value} (h : v.IsData) (what : String) : (Message.value what v).Ends := by
  intro contents
  rw [Message.value, Option.isSome_map]
  exact Value.render_of_isData h .readable contents

theorem ends_joined {args : List Value} (h : ∀ v ∈ args, v.IsData) (between : String) :
    (Message.joined between args).Ends := by
  intro contents
  have all : (args.mapM (Value.render .readable contents)).isSome = true := by
    induction args with
    | nil => rfl
    | cons v args ih =>
      obtain ⟨t, ht⟩ := Option.isSome_iff_exists.1 (Value.render_of_isData (h v List.mem_cons_self) .readable contents)
      obtain ⟨ts, hts⟩ := Option.isSome_iff_exists.1 (ih fun w hw => h w (List.mem_cons_of_mem _ hw))
      rw [List.mapM_cons, ht, hts]
      rfl
  rw [Message.joined, Option.isSome_map]
  exact all

/-- Calls with data for arguments have a text to record. -/
theorem ends_argsText : ∀ {args : List Value}, (∀ v ∈ args, v.IsData) → (Call.argsText args).Ends
  | [], _ => fun _ => rfl
  | [v], h => ends_value (h v List.mem_cons_self) ""
  | _ :: _ :: _, h => fun contents => Option.isSome_map.trans (ends_joined h "\n\t" contents)

theorem ends_callText {what : Message} (hw : what.Ends) {args : List Value} (h : ∀ v ∈ args, v.IsData) :
    (Call.callText what args).Ends := by
  intro contents
  obtain ⟨t, ht⟩ := Option.isSome_iff_exists.1 (hw contents)
  obtain ⟨ts, hts⟩ := Option.isSome_iff_exists.1 (ends_argsText h contents)
  rw [Call.callText, ht, hts]
  rfl

/-- So have calls of closures whose body is data. -/
theorem ends_closureText {body : Value} (h : body.IsData) (params : Params) (isMacro : Bool) :
    (Call.closureText params body isMacro).Ends := by
  intro contents
  rw [Call.closureText, Option.isSome_map]
  exact ends_value h _ contents

/-- A message with a text is recorded, and nothing else changes. -/
theorem record_like {message : Message} (h : message.Ends) (ctx : Context) (level : Level) (n : Machine) :
    ∃ n', Recorded ctx level message n n' ∧ n'.Like n := by
  unfold Recorded Run.record
  split
  · obtain ⟨t, ht⟩ := Option.isSome_iff_exists.1 (h (n.contents .readable))
    refine ⟨n.addRecord level t, ?_, _, rfl⟩
    simp only [Run.bind, Run.gets?, ht]
    rfl
  · exact ⟨n, rfl, .refl n⟩

/-! ## Forms that change no more than records -/

section

variable {files : Files} {e : FrameId} {m : Machine} {v x : Value} {r : Except EvalError Value}

/-- A form comes to an outcome in a frame whatever the records are, and changes nothing else. -/
def Comes (files : Files) (e : FrameId) (m : Machine) (x : Value) (r : Except EvalError Value) : Prop :=
  ∀ (c : Context), c.files = files → ∀ n : Machine, n.Like m → ∃ n', evaluate c e x n = some (r, n') ∧ n'.Like m

/-- A symbol comes to what it is bound to. -/
theorem comes_symbol {name : String} (h : m.lookup e name = some v) : Comes files e m (.symbol name) (.ok v) := by
  intro c _ n hn
  obtain ⟨n', hr, hl⟩ := record_like (ends_value (.symbol name) "evaluate_ast ") c .trace n
  exact ⟨n', (Evaluates.expanded (.done rfl) (.symbol hr (by rw [hl.lookup_eq, hn.lookup_eq, h]))).run, hl.trans hn⟩

/-- A literal comes to itself. -/
theorem comes_literal (hv : v.isLiteral = true) (hd : v.IsData) : Comes files e m v (.ok v) := by
  intro c _ n hn
  have noCall : n.macroCall? e v = none := by
    cases v with
    | list xs => cases hv
    | _ => rfl
  obtain ⟨n', hr, hl⟩ := record_like (ends_value hd "evaluate_ast ") c .trace n
  exact ⟨n', (Evaluates.expanded (.done noCall) (.literal hv hr)).run, hl.trans hn⟩

theorem comes_text (s : String) : Comes files e m (.text s) (.ok (.text s)) := comes_literal rfl (.text s)

theorem comes_nil : Comes files e m .nil (.ok .nil) := comes_literal rfl .nil

/-- Operands that come to values, evaluated in turn. -/
theorem each_comes {xs vs : List Value} (h : List.Forall₂ (fun x v => Comes files e m x (.ok v)) xs vs) {c : Context}
    (hc : c.files = files) {n : Machine} (hn : n.Like m) :
    ∃ n', Step.each evaluate c e xs n = some (.ok vs, n') ∧ n'.Like m := by
  induction h generalizing c n with
  | nil => exact ⟨n, rfl, hn⟩
  | cons hx _ ih =>
    obtain ⟨n₁, hv, hn₁⟩ := hx c hc n hn
    obtain ⟨n₂, hvs, hn₂⟩ := ih (c := c.holdValue _) hc hn₁
    exact ⟨n₂, (Run.bind_ok hv).trans (Run.bind_pure hvs), hn₂⟩

/-- Operands of which one fails, behind others that come to values. -/
theorem each_comes_error {fault : EvalError} {xs vs : List Value}
    (h : List.Forall₂ (fun x v => Comes files e m x (.ok v)) xs vs) (hx : Comes files e m x (.error fault))
    (rest : List Value) {c : Context} (hc : c.files = files) {n : Machine} (hn : n.Like m) :
    ∃ n', Step.each evaluate c e (xs ++ x :: rest) n = some (.error fault, n') ∧ n'.Like m := by
  induction h generalizing c n with
  | nil =>
    obtain ⟨n', failed, hn'⟩ := hx c hc n hn
    exact ⟨n', Run.bind_error failed, hn'⟩
  | cons hy _ ih =>
    obtain ⟨n₁, hv, hn₁⟩ := hy c hc n hn
    obtain ⟨n₂, failed, hn₂⟩ := ih (c := c.holdValue _) hc hn₁
    exact ⟨n₂, (Run.bind_ok hv).trans (Run.bind_error failed), hn₂⟩

/-- The outcome of a builtin, in so far as it has a text. -/
def OutcomeEnds : Except EvalError Value → Prop
  | .ok v => v.IsData
  | .error fault => Message.Ends fun contents => fault.message contents

/-- A builtin called with data, that comes to an outcome without a change of more than records. -/
theorem builtin_comes {b : Builtin} {args : List Value} (hc : b.arity.accepts args.length = true)
    (hargs : ∀ v ∈ args, v.IsData) (hr : OutcomeEnds r) {c : Context} {n : Machine} (hn : n.Like m)
    (hrun : ∀ n : Machine, n.Like m → ∃ n', b.run c args n = some (r, n') ∧ n'.Like m) :
    ∃ n', Call.builtin c b args n = some (r, n') ∧ n'.Like m := by
  obtain ⟨n₁, called, hn₁⟩ := record_like (ends_callText (ends_text b.name) hargs) c .trace n
  obtain ⟨n₂, ran, hn₂⟩ := hrun n₁ (hn₁.trans hn)
  have start {out} (h : Run.observe (b.run c args)
      (fun v => Run.recordValue c .trace ("Call to " ++ b.name ++ " resulted in ") v)
      (fun e => Run.record c .trace fun contents =>
        (e.message contents).map fun t => "Call to " ++ b.name ++ " failed: " ++ t) n₁ = out) :
      Call.builtin c b args n = out := by
    unfold Call.builtin
    rw [Call.checkCount, if_pos hc]
    exact (Run.bind_ok called).trans h
  cases r with
  | ok v =>
    obtain ⟨n₃, recorded, hn₃⟩ := record_like (ends_value hr ("Call to " ++ b.name ++ " resulted in ")) c .trace n₂
    exact ⟨n₃, start ((Run.observe_ok ran).trans (Run.bind_ok recorded)), hn₃.trans hn₂⟩
  | error fault =>
    have ends : Message.Ends fun contents =>
        (fault.message contents).map fun t => "Call to " ++ b.name ++ " failed: " ++ t := fun contents =>
      Option.isSome_map.trans (hr contents)
    obtain ⟨n₃, recorded, hn₃⟩ := record_like ends c .trace n₂
    exact ⟨n₃, start ((Run.observe_error ran).trans (Run.bind_ok recorded)), hn₃.trans hn₂⟩

/-- A call of a builtin by its name. -/
theorem comes_builtin {name : String} {b : Builtin} {operands args : List Value}
    (hb : m.lookup e name = some (.builtin b)) (hs : SpecialForm.ofValue? (.symbol name) = none)
    (hd : (Value.list (.symbol name :: operands)).IsData)
    (hx : List.Forall₂ (fun x v => Comes files e m x (.ok v)) operands args)
    (hc : b.arity.accepts args.length = true) (hargs : ∀ v ∈ args, v.IsData) (hr : OutcomeEnds r)
    (hrun : ∀ c : Context, c.files = files → ∀ n : Machine, n.Like m →
      ∃ n', b.run c args n = some (r, n') ∧ n'.Like m) :
    Comes files e m (.list (.symbol name :: operands)) r := by
  intro c hf n hn
  have noCall : n.macroCall? e (.list (.symbol name :: operands)) = none := by
    simp only [Machine.macroCall?, hn.lookup_eq, hb]
    rfl
  obtain ⟨n₁, recorded, hn₁⟩ := record_like (ends_value hd "apply ") c .trace n
  obtain ⟨n₂, elements, hn₂⟩ :=
    each_comes (.cons (comes_symbol hb) hx) (c := c.hold e (.list (.symbol name :: operands))) hf (hn₁.trans hn)
  obtain ⟨n₃, called, hn₃⟩ := builtin_comes hc hargs hr hn₂ (hrun (c.hold e (.list (.symbol name :: operands))) hf)
  refine ⟨n₃, ?_, hn₃⟩
  rw [Call.evaluate_call noCall hs recorded elements, Call.inPlace, Call.apply_builtin, bind_done]
  exact called

/-- A call by a name, whatever is called, fails as the first of its operands that fails. -/
theorem comes_call_error (before after : List Value) {name : String} {f : Value} {fault : EvalError} {vs : List Value}
    (hb : m.lookup e name = some f) (hf : f.expands = false) (hs : SpecialForm.ofValue? (.symbol name) = none)
    (hd : (Value.list (.symbol name :: (before ++ x :: after))).IsData)
    (hbefore : List.Forall₂ (fun x v => Comes files e m x (.ok v)) before vs)
    (hx : Comes files e m x (.error fault)) :
    Comes files e m (.list (.symbol name :: (before ++ x :: after))) (.error fault) := by
  intro c hc n hn
  have noCall : n.macroCall? e (.list (.symbol name :: (before ++ x :: after))) = none := by
    simp only [Machine.macroCall?, hn.lookup_eq, hb, hf]
    rfl
  obtain ⟨n₁, recorded, hn₁⟩ := record_like (ends_value hd "apply ") c .trace n
  obtain ⟨n₂, elements, hn₂⟩ := each_comes_error (.cons (comes_symbol hb) hbefore) hx after
    (c := c.hold e (.list (.symbol name :: (before ++ x :: after)))) hc (hn₁.trans hn)
  exact ⟨n₂, Call.evaluate_call_fails noCall hs recorded elements, hn₂⟩

end

end MiniLisp

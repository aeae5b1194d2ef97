import Mathlib
import MiniLisp.Proofs.Growth
import MiniLisp.Proofs.Program
import MiniLisp.Proofs.Quasiquote
import MiniLisp.Proofs.Quiet

/-!
# Loading a file

What `load-file` does wherever it is called: the text of the file is read between the brackets of a program, and the
form that this gives is evaluated in the root. Before that a frame is added and records are made, and nothing else is
changed.

* `Bindings.LoadsFiles`: a root binds what `load-file` needs.
* **Files that spell forms** (`load_file_runs_every_form`), **and those that do not** (`load_file_on_other_texts`).
-/

namespace MiniLisp

/-! ## The closure -/

/-- The form that spells the text of the file between the brackets of a program. -/
def programForm : Value :=
  .list [.symbol "str", .text "(do ", .list [.symbol "slurp", .symbol "f"], .text "\nnil)"]

def loadBody : Value := .list [.symbol "eval", .list [.symbol "read-string", programForm]]

/-- The closure `load-file` of a root. -/
def loader (root : FrameId) (id : ClosureId) : Value := .closure id ⟨["f"], none⟩ loadBody root false

/-- The form `(load-file path)`. -/
def loadForm (path : String) : Value := .list [.symbol "load-file", .text path]

/-- The bindings of a root in which `load-file` and all that it uses mean what they mean in a new one, and `do` is no
macro. -/
structure Bindings.LoadsFiles (bs : Bindings) (root : FrameId) (id : ClosureId) : Prop where
  loadFile : bs.find? "load-file" = some (loader root id)
  eval : bs.find? "eval" = some (.rooted .eval root)
  readString : bs.find? "read-string" = some (.builtin .readString)
  str : bs.find? "str" = some (.builtin .str)
  slurp : bs.find? "slurp" = some (.builtin .slurp)
  sequence {f : Value} (h : bs.find? "do" = some f) : f.expands = false

/-- The machine with the frame of a call of `load-file`. -/
def Machine.loading (m : Machine) (root : FrameId) (path : String) : Machine :=
  (m.addFrame [("f", .text path)] (some root)).2

section

variable {files : Files} {ctx : Context} {e root : FrameId} {id : ClosureId} {bs : Bindings} {m n : Machine}
  {path source : String}

/-! ## Inside the call -/

theorem isData_programForm : programForm.IsData := by
  refine .list fun x hx => ?_
  simp only [List.mem_cons, List.not_mem_nil, or_false] at hx
  rcases hx with rfl | rfl | rfl | rfl
  · exact .symbol _
  · exact .text _
  · refine .list fun x hx => ?_
    simp only [List.mem_cons, List.not_mem_nil, or_false] at hx
    rcases hx with rfl | rfl <;> exact .symbol _
  · exact .text _

theorem isData_call {name : String} {x : Value} (h : x.IsData) : (Value.list [.symbol name, x]).IsData := by
  refine .list fun y hy => ?_
  simp only [List.mem_cons, List.not_mem_nil, or_false] at hy
  rcases hy with rfl | rfl
  · exact .symbol name
  · exact h

theorem joined_texts (a b c : String) (n : Machine) :
    Run.joined .plain "" [.text a, .text b, .text c] n = some (.ok (a ++ b ++ c), n) := by
  have text (s : String) : n.text? .plain (.text s) = some s := by
    simp [Machine.text?, Value.render, Mode.text]
  have texts : [.text a, .text b, .text c].mapM (fun v => n.text? .plain v) = some [a, b, c] := by
    simp [List.mapM_cons, text]
  have joined : "".intercalate [a, b, c] = a ++ b ++ c := by
    rw [String.intercalate_cons_cons, String.intercalate_cons_cons, String.intercalate_singleton]
    simp [String.append_assoc]
  simp only [Run.joined, Run.gets?, texts, Option.map_some, joined]

/-- A call of `load-file` adds a frame in which the body is evaluated, whatever more is held during the call. -/
theorem call_loader (ctx : Context) (root : FrameId) (id : ClosureId) (path : String) (m : Machine) :
    ∃ n, n.Like (m.loading root path) ∧ ∀ inner after, ctx.LE inner →
      Run.bind (Call.apply evaluate inner (loader root id) [.text path]) (Turn.next evaluate after) m =
        evaluate (after m.frames.size loadBody) m.frames.size loadBody n := by
  have text : (Call.closureText ⟨["f"], none⟩ loadBody false).Ends :=
    ends_closureText (isData_call (isData_call isData_programForm)) _ _
  have data : ∀ v ∈ [Value.text path], v.IsData := by simp [Value.IsData.text]
  obtain ⟨n, called, hn⟩ := record_like (ends_callText text data) ctx .trace m
  refine ⟨_, hn.addFrame [("f", .text path)] (some root), fun inner after hi => ?_⟩
  have called' : Recorded inner .trace
      (Call.callText (Call.closureText ⟨["f"], none⟩ loadBody false) [.text path]) m n :=
    (congrFun (hi.record_eq _ _) m).trans called
  rw [loader, Call.apply_closure, Run.bind_assoc]
  refine (Run.bind_ok called').trans ((congrFun (Run.bind_assoc _ _ _) n).trans ?_)
  refine (Run.bind_ok (Call.enter_eq rfl root n)).trans ?_
  rw [hn.frames_eq]
  rfl

/-- Before the body of `load-file` is evaluated, a frame is added. -/
theorem evaluate_loadForm (ctx : Context) (path : String) (hl : m.lookup e "load-file" = some (loader root id)) :
    ∃ n, n.Like (m.loading root path) ∧ evaluate ctx e (loadForm path) m = evaluate ctx m.frames.size loadBody n := by
  have noCall : m.macroCall? e (loadForm path) = none := by
    simp only [loadForm, Machine.macroCall?, hl]
    rfl
  obtain ⟨n₁, recorded, hn₁⟩ := record_like (ends_value (isData_call (.text path)) "apply ") ctx .trace m
  obtain ⟨n₂, elements, hn₂⟩ := each_comes (e := e) (.cons (comes_symbol hl) (.cons (comes_text path) .nil))
    (rfl : (ctx.hold e (loadForm path)).files = ctx.files) hn₁
  obtain ⟨n, hn, called⟩ := call_loader ctx root id path n₂
  have size : n₂.frames.size = m.frames.size := by rw [hn₂.frames_eq]
  refine ⟨n, hn.trans (hn₂.addFrame [("f", .text path)] (some root)), ?_⟩
  refine (Call.evaluate_call noCall (by decide) recorded elements).trans ((called _ _ (.hold_self ctx e _)).trans ?_)
  rw [size]

variable (hroot : m.frames[root]? = some ⟨bs, none⟩)
include hroot

theorem root_lt : root < m.frames.size := (Array.getElem?_eq_some_iff.1 hroot).1

theorem loading_root : (m.loading root path).frames[root]? = some ⟨bs, none⟩ :=
  (Machine.ChangesOnly.addFrame m [("f", .text path)] (some root) []).frame hroot (by simp)

theorem lookup_loading (name : String) :
    (m.loading root path).lookup m.frames.size name =
      (Bindings.find? name [("f", .text path)]).or (bs.find? name) :=
  Machine.lookup_child Array.getElem?_push_size (loading_root hroot) (root_lt hroot) name

theorem lookup_loading_of_ne {name : String} {f : Value} (hn : name ≠ "f") (h : bs.find? name = some f) :
    (m.loading root path).lookup m.frames.size name = some f := by
  rw [lookup_loading hroot, h]
  simp [Bindings.find?, Ne.symm hn]

variable (hb : bs.LoadsFiles root id)
include hb

/-- Reading the file gives its text, or fails as the file cannot be read. -/
theorem comes_slurp {r : Except FileError String} (hf : files path = r) :
    Comes files m.frames.size (m.loading root path) (.list [.symbol "slurp", .symbol "f"])
      (r.map .text |>.mapError .file) := by
  have operand : (m.loading root path).lookup m.frames.size "f" = some (.text path) := by
    rw [lookup_loading hroot]
    rfl
  have ends : OutcomeEnds (r.map .text |>.mapError .file) := by
    cases r with
    | ok source => exact .text source
    | error fault => exact fun _ => rfl
  refine comes_builtin (lookup_loading_of_ne hroot (by decide) hb.slurp) (by decide) (isData_call (.symbol "f"))
    (.cons (comes_symbol operand) .nil) rfl (by simp [Value.IsData.text]) ends fun c hc n hn => ?_
  obtain ⟨n', recorded, hn'⟩ := record_like (ends_text (Builtin.slurpNote ++ path)) c .info n
  refine ⟨n', (Run.bind_ok recorded).trans ?_, hn'.trans hn⟩
  rw [hc, hf]
  cases r <;> rfl

theorem comes_programForm (hf : files path = .ok source) :
    Comes files m.frames.size (m.loading root path) programForm (.ok (.text (Interpreter.program source))) := by
  refine comes_builtin (lookup_loading_of_ne hroot (by decide) hb.str) (by decide) isData_programForm
    (.cons (comes_text _) (.cons (comes_slurp hroot hb hf) (.cons (comes_text _) .nil))) rfl
    (by simp [Value.IsData.text]) (.text _) fun c _ n hn => ⟨n, ?_, hn⟩
  exact Run.bind_ok (f := fun t => Run.pure (Value.text t)) (joined_texts "(do " source "\nnil)" n)

/-- Reading the program gives a form, or fails as a form that cannot be read. -/
theorem comes_readForm (hf : files path = .ok source) :
    Comes files m.frames.size (m.loading root path) (.list [.symbol "read-string", programForm])
      (Value.read? (Interpreter.program source).toList |>.mapError .unreadable) := by
  have run (c : Context) (n : Machine) : Builtin.readString.run c [.text (Interpreter.program source)] n =
      some ((Value.read? (Interpreter.program source).toList).mapError .unreadable, n) := by
    change some (Convert.readString (.text (Interpreter.program source)), n) = _
    simp only [Convert.readString, Convert.string]
    have something := read?_program_ne_nothingToRead source
    split
    · next h => rw [h]; rfl
    · next h => exact absurd h something
    · next h => rw [h]; rfl
  refine comes_builtin (lookup_loading_of_ne hroot (by decide) hb.readString) (by decide)
    (isData_call isData_programForm) (.cons (comes_programForm hroot hb hf) .nil) rfl (by simp [Value.IsData.text]) ?_
    fun c _ n hn => ⟨n, run c n, hn⟩
  cases hr : Value.read? (Interpreter.program source).toList with
  | ok form => exact Value.isData_of_read? hr
  | error fault => exact fun _ => rfl

/-! ## The call -/

omit hb in
/-- The root is still there while a frame right below it is held. -/
theorem isAlive_loading (hn : n.Like (m.loading root path)) {held : Holds} (hh : m.frames.size ∈ held.frames) :
    n.isAlive held root = true := by
  have below : n.frames[m.frames.size]? = some ⟨[("f", .text path)], some root⟩ := by
    rw [hn.frames_eq]
    exact Array.getElem?_push_size
  have top : n.frames[root]? = some ⟨bs, none⟩ := by rw [hn.frames_eq, loading_root hroot]
  have chain : root ∈ n.chain m.frames.size := by
    have some : m.frames.size ≠ 0 := Nat.ne_of_gt (Nat.zero_lt_of_lt (root_lt hroot))
    obtain ⟨k, hk⟩ := Nat.exists_eq_succ_of_ne_zero some
    simp only [Machine.chain, Machine.chainWithin, below]
    rw [hk, Machine.chainWithin, top]
    simp
  simp only [Machine.isAlive, Bool.or_eq_true, List.any_eq_true, List.contains_iff_mem]
  exact .inl ⟨m.frames.size, hh, chain⟩

theorem eval_bound : (m.loading root path).lookup m.frames.size "eval" = some (.rooted .eval root) :=
  lookup_loading_of_ne hroot (by decide) hb.eval

/-- In the body, a program that does not read is a failure. -/
theorem comes_loadBody_error (hf : files path = .ok source) {fault : ReadError}
    (hr : Value.read? (Interpreter.program source).toList = .error fault) :
    Comes files m.frames.size (m.loading root path) loadBody (.error (.unreadable fault)) := by
  have read := comes_readForm hroot hb hf
  rw [hr] at read
  exact comes_call_error [] [] (eval_bound hroot hb) rfl (by decide) (isData_call (isData_call isData_programForm)) .nil
    read

/-- In the body, a file that cannot be read is a failure. -/
theorem comes_loadBody_missing {fault : FileError} (hf : files path = .error fault) :
    Comes files m.frames.size (m.loading root path) loadBody (.error (.file fault)) := by
  have spelled : Comes files m.frames.size (m.loading root path) programForm (.error (.file fault)) :=
    comes_call_error [.text "(do "] [.text "\nnil)"] (lookup_loading_of_ne hroot (by decide) hb.str) rfl (by decide)
      isData_programForm (.cons (comes_text _) .nil) (comes_slurp hroot hb hf)
  have read : Comes files m.frames.size (m.loading root path) (.list [.symbol "read-string", programForm])
      (.error (.file fault)) :=
    comes_call_error [] [] (lookup_loading_of_ne hroot (by decide) hb.readString) rfl (by decide)
      (isData_call isData_programForm) .nil spelled
  exact comes_call_error [] [] (eval_bound hroot hb) rfl (by decide)
    (isData_call (isData_call isData_programForm)) .nil read

/-- The context in which the body evaluates the form that the program reads as. -/
def Context.evaluating (ctx : Context) (e root : FrameId) (form : Value) : Context :=
  ((ctx.hold e loadBody).holdItems [.rooted .eval root, form]).holdFrame root

omit hroot hb in
theorem Context.LE.evaluating (ctx : Context) (e root : FrameId) (form : Value) :
    ctx.LE (ctx.evaluating e root form) := by
  have held := (Context.LE.hold_self ctx e loadBody).trans (Context.LE.holdItems_self _ [.rooted .eval root, form])
  exact held.trans ⟨rfl, rfl, Holds.le_frame _ root⟩

/-- In the body, the form that the program reads as is evaluated in the root, from the same machine whatever more is
held. -/
theorem evaluate_loadBody (hf : ctx.files path = .ok source) {form : Value}
    (hr : Value.read? (Interpreter.program source).toList = .ok form) (hn : n.Like (m.loading root path)) :
    ∃ n', n'.Like (m.loading root path) ∧ ∀ ctx', ctx.LE ctx' →
      evaluate ctx' m.frames.size loadBody n =
        evaluate (ctx'.evaluating m.frames.size root form) root form n' := by
  have noCall : n.macroCall? m.frames.size loadBody = none := by
    simp only [loadBody, Machine.macroCall?, hn.lookup_eq, eval_bound hroot hb]
    rfl
  obtain ⟨n₁, recorded, hn₁⟩ := record_like
    (ends_value (isData_call (isData_call isData_programForm) : loadBody.IsData) "apply ") ctx .trace n
  have read := comes_readForm hroot hb hf
  rw [hr] at read
  obtain ⟨n₂, elements, hn₂⟩ := each_comes (c := ctx.hold m.frames.size loadBody)
    (.cons (comes_symbol (eval_bound hroot hb)) (.cons read .nil)) rfl (hn₁.trans hn)
  have data : ∀ v ∈ [form], v.IsData := by
    rintro v hv
    obtain rfl := List.mem_singleton.1 hv
    exact Value.isData_of_read? hr
  obtain ⟨n₃, called, hn₃⟩ := record_like (ends_callText (ends_text Rooted.eval.name) data) ctx .trace n₂
  obtain ⟨n₄, noted, hn₄⟩ := record_like
    (ends_value (data form List.mem_cons_self) "Call from mal to EVAL with ") ctx .info n₃
  refine ⟨n₄, hn₄.trans (hn₃.trans hn₂), fun ctx' hle => ?_⟩
  let inner := ctx'.hold m.frames.size loadBody
  let calling := inner.holdItems [.rooted .eval root, form]
  have toInner : ctx.LE inner := hle.trans (.hold_self ctx' _ _)
  have toCalling : ctx.LE calling := toInner.trans (.holdItems_self inner _)
  have again {c : Context} (h : ctx.LE c) {level : Level} {message : Message} {k k' : Machine}
      (hk : Recorded ctx level message k k') : Recorded c level message k k' :=
    (congrFun (h.record_eq level message) k).trans hk
  have elements' : Step.each evaluate inner m.frames.size
      [.symbol "eval", .list [.symbol "read-string", programForm]] n₁ = some (.ok [.rooted .eval root, form], n₂) := by
    -- the operands have values, so no root was gone when less was held
    have within : (ctx.hold m.frames.size loadBody).LE inner := (hle.holdFrame m.frames.size).holdItems [loadBody]
    have same := simulation_holding.each (fun hc e form => simulation_holding.evaluate hc e form) within
      m.frames.size _ n₁ _ elements
    refine same.resolve_left ?_
    rintro ⟨name, gone⟩
    cases gone
  have alive : n₂.isAlive calling.held root = true := isAlive_loading hroot hn₂ List.mem_cons_self
  refine (Call.evaluate_call noCall (by decide) (again hle recorded) elements').trans ?_
  rw [Call.inPlace, Call.apply_rooted, bind_done]
  have count : Rooted.eval.arity.accepts [form].length = true := rfl
  refine (Call.rooted_of_alive count alive).trans ((Run.bind_ok (again toCalling called)).trans ?_)
  exact Run.bind_ok (f := fun _ => evaluate (calling.holdFrame root) root form)
    (again (c := calling.holdFrame root) (toCalling.trans ⟨rfl, rfl, Holds.le_frame _ root⟩) noted)

end

/-! ## Forms in order -/

/-- Forms evaluated one after another, up to the first failure. -/
def inOrder (ctx : Context) (e : FrameId) : List Value → Run Unit
  | [] => Run.pure ()
  | x :: xs => Run.bind (evaluate ctx e x) fun _ => inOrder ctx e xs

/-- The forms of a `do` but the last one are evaluated in order, and then the last one. -/
theorem sequence_eq_inOrder (inner ctx : Context) (e : FrameId) (fs : List Value) (last : Value) :
    Run.bind (Step.sequence evaluate inner e (fs ++ [last])) (Turn.next evaluate fun _ _ => ctx) =
      Run.bind (inOrder inner e fs) fun _ => evaluate ctx e last := by
  induction fs with
  | nil => rfl
  | cons x fs ih =>
    have next : Step.sequence evaluate inner e (x :: fs ++ [last]) =
        Run.bind (evaluate inner e x) fun _ => Step.sequence evaluate inner e (fs ++ [last]) := by
      cases fs <;> rfl
    rw [next, inOrder, Run.bind_assoc, Run.bind_assoc]
    simp only [ih]

/-- What a `do` comes to, by its last form. -/
theorem sequence_eq (inner ctx : Context) (e : FrameId) (fs : List Value) :
    Run.bind (Step.sequence evaluate inner e fs) (Turn.next evaluate fun _ _ => ctx) =
      Run.bind (inOrder inner e fs.dropLast) fun _ => evaluate ctx e (fs.getLastD .nil) := by
  rcases List.eq_nil_or_concat' fs with rfl | ⟨fs, last, rfl⟩
  · rfl
  · rw [sequence_eq_inOrder, List.dropLast_concat, List.getLastD_concat]

/-- A `do` is performed once its form is recorded. -/
theorem evaluate_doForm {e : FrameId} {fs : List Value} {n : Machine} (hc : n.macroCall? e (doForm fs) = none)
    (hd : (doForm fs).IsData) (ctx : Context) :
    ∃ n', n'.Like n ∧ evaluate ctx e (doForm fs) n =
      Run.bind (inOrder (ctx.hold e (doForm fs)) e fs.dropLast) (fun _ => evaluate ctx e (fs.getLastD .nil)) n' := by
  obtain ⟨n', recorded, hn⟩ := record_like (ends_value hd "apply ") ctx .trace n
  refine ⟨n', hn, ?_⟩
  rw [← sequence_eq, evaluate_eq, advance, step]
  refine (congrFun (Run.bind_assoc _ _ _) n).trans ((Run.bind_ok (expandWithin_of_none hc)).trans ?_)
  unfold doForm at recorded ⊢
  rw [Step.expanded_special (by decide : SpecialForm.ofValue? (.symbol "do") = some .sequence), Run.bind_assoc]
  exact Run.bind_ok recorded

/-! ## Files -/

/-- `load-file` means in a frame what it means in a root, and that root has all that it uses. -/
structure Machine.CanLoad (m : Machine) (e root : FrameId) : Prop where
  root : ∃ bs id, m.frames[root]? = some ⟨bs, none⟩ ∧ bs.LoadsFiles root id ∧
    m.lookup e "load-file" = some (loader root id)

/-- The contexts and the machine in which a form from a file is evaluated in the root: no less is held than outside,
the root is, and but for records the machine is the one with the frame of the call. -/
structure LoadedIn (ctx inner outer : Context) (root : FrameId) (path : String) (m n : Machine) : Prop where
  innerHolds : ctx.LE inner ∧ root ∈ inner.held.frames
  outerHolds : ctx.LE outer ∧ root ∈ outer.held.frames
  like : n.Like (m.loading root path)

section

variable {ctx : Context} {e root : FrameId} {m : Machine} {path source : String}

/-- A program that does not read is a failure of `load-file`. -/
theorem evaluate_loadForm_error (h : m.CanLoad e root) (hf : ctx.files path = .ok source) {fault : ReadError}
    (hr : Value.read? (Interpreter.program source).toList = .error fault) :
    ∃ n, evaluate ctx e (loadForm path) m = some (.error (.unreadable fault), n) ∧ n.Like (m.loading root path) := by
  obtain ⟨bs, id, hroot, hb, hl⟩ := h.root
  obtain ⟨n, hn, call⟩ := evaluate_loadForm ctx path hl
  obtain ⟨n', body, hn'⟩ := comes_loadBody_error hroot hb hf hr ctx rfl n hn
  exact ⟨n', call.trans body, hn'⟩

/-- What a program reads as is evaluated in the root, form by form. -/
theorem evaluate_loadForm_ok (h : m.CanLoad e root) (hf : ctx.files path = .ok source) {fs : List Value}
    (hr : Value.read? (Interpreter.program source).toList = .ok (doForm fs)) :
    ∃ inner outer n, LoadedIn ctx inner outer root path m n ∧ evaluate ctx e (loadForm path) m =
      Run.bind (inOrder inner root fs.dropLast) (fun _ => evaluate outer root (fs.getLastD .nil)) n := by
  obtain ⟨bs, id, hroot, hb, hl⟩ := h.root
  obtain ⟨n₁, hn₁, call⟩ := evaluate_loadForm ctx path hl
  obtain ⟨n₂, hn₂, evaluates⟩ := evaluate_loadBody hroot hb hf hr hn₁
  let outer := ctx.evaluating m.frames.size root (doForm fs)
  have hle : ctx.LE outer := .evaluating ctx m.frames.size root (doForm fs)
  have held : root ∈ outer.held.frames := List.mem_cons_self
  have body := evaluates ctx (.refl ctx)
  have noCall : n₂.macroCall? root (doForm fs) = none := by
    have look : n₂.lookup root "do" = bs.find? "do" := by rw [hn₂.lookup_eq, Machine.lookup_root (loading_root hroot)]
    exact Machine.macroCall?_eq_none (fun f hf => hb.sequence (look.symm.trans hf)) fs
  obtain ⟨n₃, hn₃, forms⟩ := evaluate_doForm noCall (Value.isData_of_read? hr) outer
  refine ⟨outer.hold root (doForm fs), outer, n₃, ⟨⟨?_, List.mem_cons_self⟩, ⟨hle, held⟩, hn₃.trans hn₂⟩, ?_⟩
  · exact hle.trans (Context.LE.hold_self outer root (doForm fs))
  · exact call.trans (body.trans forms)

end

/-- **A file whose text spells forms** is loaded whole: the program reads as all of its forms and a nil, and
`load-file`, wherever it is called, evaluates the forms in order in the root. It comes to nil if all of them have
values; otherwise to the first failure, with what the forms up to it did and nothing of those after it. -/
theorem load_file_runs_every_form :
    (∀ (source : String) (fs : List Value), FormsOf source.toList fs →
      Value.read? (Interpreter.program source).toList = .ok (doForm (fs ++ [.nil]))) ∧
    ∀ (ctx : Context) (e root : FrameId) (path source : String) (fs : List Value) (m : Machine),
      m.CanLoad e root → ctx.files path = .ok source → FormsOf source.toList fs →
      ∃ inner outer n, LoadedIn ctx inner outer root path m n ∧
        match inOrder inner root fs n with
        | none => evaluate ctx e (loadForm path) m = none
        | some (.error fault, n') => evaluate ctx e (loadForm path) m = some (.error fault, n')
        | some (.ok _, n') => ∃ n'', evaluate ctx e (loadForm path) m = some (.ok .nil, n'') ∧ n''.Like n' := by
  refine ⟨fun source fs h => read?_program h, fun ctx e root path source fs m h hf hs => ?_⟩
  obtain ⟨inner, outer, n, loaded, run⟩ := evaluate_loadForm_ok h hf (read?_program hs)
  rw [List.dropLast_concat, List.getLastD_concat] at run
  refine ⟨inner, outer, n, loaded, ?_⟩
  cases hx : inOrder inner root fs n with
  | none =>
    refine run.trans ?_
    unfold Run.bind
    rw [hx]
  | some out =>
    obtain ⟨fault | u, n'⟩ := out
    · exact run.trans (Run.bind_error hx)
    · obtain ⟨n'', last, like⟩ := comes_nil (e := root) outer rfl n' (.refl n')
      exact ⟨n'', (run.trans (Run.bind_ok hx)).trans last, like⟩

/-- A root with what `load-file` needs and nothing else. -/
def loadBindings : Bindings :=
  [("load-file", loader 0 0), ("eval", .rooted .eval 0), ("read-string", .builtin .readString), ("str", .builtin .str),
    ("slurp", .builtin .slurp)]

def loadMachine : Machine := ⟨#[⟨loadBindings, none⟩], #[], 1, "", #[]⟩

theorem loadMachine_canLoad : loadMachine.CanLoad 0 0 :=
  ⟨loadBindings, 0, rfl, ⟨rfl, rfl, rfl, rfl, rfl, fun h => by cases h⟩, rfl⟩

/-- Every path names a file of the text. -/
def withText (source : String) : Context := ⟨fun _ => .ok source, none, ⟨[0], []⟩⟩

/-- Two numbers with a comment between them in which a bracket stands. -/
def twoNumbers : String := "1 ;(\n2"

theorem formsOf_twoNumbers : FormsOf twoNumbers.toList [.int 1, .int 2] := by
  have scanned : Token.scan? twoNumbers.toList = some [.plain ['1'], .comment ['('], .plain ['2']] := by cbv
  have one : Form [.plain ['1']] (.int 1) := .plain (by cbv)
  have two : Form [.plain ['2']] (.int 2) := .plain (by cbv)
  exact ⟨_, scanned, .cons one (forms_single two)⟩

theorem load_file_runs_every_form_twoNumbers :
    loadMachine.CanLoad 0 0 ∧ (withText twoNumbers).files "f" = .ok twoNumbers ∧
      FormsOf twoNumbers.toList [.int 1, .int 2] ∧
      ∃ n, evaluate (withText twoNumbers) 0 (loadForm "f") loadMachine = some (.ok .nil, n) := by
  refine ⟨loadMachine_canLoad, rfl, formsOf_twoNumbers, ?_⟩
  obtain ⟨inner, outer, n, loaded, outcome⟩ := load_file_runs_every_form.2 (withText twoNumbers) 0 0 "f" twoNumbers
    [.int 1, .int 2] loadMachine loadMachine_canLoad rfl formsOf_twoNumbers
  obtain ⟨n₁, one, -⟩ := comes_literal (v := .int 1) (e := 0) rfl (.int 1) inner rfl n (.refl n)
  obtain ⟨n₂, two, -⟩ := comes_literal (v := .int 2) (e := 0) rfl (.int 2) inner rfl n₁ (.refl n₁)
  have both : inOrder inner 0 [.int 1, .int 2] n = some (.ok (), n₂) :=
    (Run.bind_ok one).trans (Run.bind_ok two)
  rw [both] at outcome
  obtain ⟨n₃, run, -⟩ := outcome
  exact ⟨n₃, run⟩

/-- **A file whose text spells no forms** is a failure of `load-file` before any of it is evaluated, but for two kinds
of text: after a closing bracket too many the rest is left out, and marks at the end of the text are put before the nil
that the program ends with. In both, what comes before is evaluated. -/
theorem load_file_on_other_texts (ctx : Context) (e root : FrameId) (path source : String) (m : Machine)
    (h : m.CanLoad e root) (hf : ctx.files path = .ok source) :
    ((∀ fs marks, ¬ Dangles source.toList fs marks) → (∀ fs, ¬ ClosedEarly source.toList fs) →
      ∃ fault n, evaluate ctx e (loadForm path) m = some (.error (.unreadable fault), n) ∧
        n.Like (m.loading root path)) ∧
    (∀ fs, ClosedEarly source.toList fs → ∃ inner outer n, LoadedIn ctx inner outer root path m n ∧
      evaluate ctx e (loadForm path) m =
        Run.bind (inOrder inner root fs.dropLast) (fun _ => evaluate outer root (fs.getLastD .nil)) n) ∧
    ∀ fs marks, Dangles source.toList fs marks → ∃ inner outer n, LoadedIn ctx inner outer root path m n ∧
      evaluate ctx e (loadForm path) m =
        Run.bind (inOrder inner root fs) (fun _ => evaluate outer root (markedForm marks .nil)) n := by
  refine ⟨fun noMarks notClosed => ?_, fun fs hs => evaluate_loadForm_ok h hf (read?_program_of_closedEarly hs),
    fun fs marks hs => ?_⟩
  · cases hr : Value.read? (Interpreter.program source).toList with
    | error fault =>
      obtain ⟨n, run, like⟩ := evaluate_loadForm_error h hf hr
      exact ⟨fault, n, run, like⟩
    | ok form =>
      rcases read?_program_iff.1 hr with ⟨fs, marks, hs, -⟩ | ⟨fs, hs, -⟩
      · exact absurd hs (noMarks fs marks)
      · exact absurd hs (notClosed fs)
  · obtain ⟨inner, outer, n, loaded, run⟩ := evaluate_loadForm_ok h hf (read?_program_of_dangles hs)
    rw [List.dropLast_concat, List.getLastD_concat] at run
    exact ⟨inner, outer, n, loaded, run⟩

/-- A list that is not closed is found out before anything is evaluated. -/
theorem load_file_on_other_texts_open :
    loadMachine.CanLoad 0 0 ∧ (withText "(").files "f" = .ok "(" ∧
      ∃ fault n, evaluate (withText "(") 0 (loadForm "f") loadMachine = some (.error (.unreadable fault), n) ∧
        n.Like (loadMachine.loading 0 "f") := by
  have unread : Value.read? (Interpreter.program "(").toList = .error (.unbalanced .list) := by cbv
  refine ⟨loadMachine_canLoad, rfl,
    (load_file_on_other_texts _ 0 0 "f" "(" _ loadMachine_canLoad rfl).1 (fun fs marks h => ?_) fun fs h => ?_⟩
  · cases unread.symm.trans (read?_program_of_dangles h)
  · cases unread.symm.trans (read?_program_of_closedEarly h)

/-- A closing bracket alone spells no forms, and still `load-file` comes to nil. -/
theorem load_file_passes_over_closing :
    (∀ fs, ¬ FormsOf ")".toList fs) ∧
      ∃ n, evaluate (withText ")") 0 (loadForm "f") loadMachine = some (.ok .nil, n) := by
  have scanned : Token.scan? ")".toList = some [.closing .round] := by cbv
  have closed : ClosedEarly ")".toList [] := ⟨_, [], [], scanned, rfl, .nil⟩
  refine ⟨fun fs h => ?_, ?_⟩
  · have same := (read?_program_of_closedEarly closed).symm.trans (read?_program h)
    simp [doForm] at same
  · have file : (withText ")").files "f" = .ok ")" := rfl
    obtain ⟨inner, outer, n, -, run⟩ :=
      evaluate_loadForm_ok loadMachine_canLoad file (read?_program_of_closedEarly closed)
    obtain ⟨n', last, -⟩ := comes_nil (e := 0) outer rfl n (.refl n)
    exact ⟨n', run.trans last⟩

end MiniLisp

import Mathlib
import MiniLisp.Script
import MiniLisp.Proofs.Prelude
import MiniLisp.Proofs.Prints
import MiniLisp.Proofs.RoundTrip

/-!
# Scripts and their paths

The path of a script is put into the text of a call, between quotes, and the text is read. However the path is spelled,
what is read is that call with the path in it (`read?_command`). Its evaluation comes to what `load-file` applied to the
path comes to: in the place of a form less is held than in a call to its end, but not once the root is held, in which
the file is evaluated (`inPlace_loader`); and apart from that it makes some trace records more (`agree_loadForm`). What
it comes to is printed, and so a script goes on for ever if an atom that contains itself is met in that.

* `Script.Ends`: how a script ends, by what `load-file` comes to.
* `script_path_is_taken_literally`: scripts in new roots.
* `script_prints_without_end`: a script that never ends, though `load-file` does.
-/

namespace MiniLisp

/-! ## The text of the call -/

theorem spells_command (path : String) : Spells (Script.command path).toList [loadForm path] := by
  have isName : IsName "load-file" :=
    ⟨List.all_eq_true.1 rfl, ⟨_, _, rfl, by decide, by decide, by decide, by decide⟩, by decide, rfl⟩
  have name : Spells "load-file".toList [.symbol "load-file"] :=
    spells_run isName.isRun (Value.ofPlain?_symbol isName)
  have call := spells_bracket (b := .round) (spells_append name (spells_literal path)) (v := loadForm path) rfl
  have text : (Script.command path).toList =
      Bracket.round.openChar :: ("load-file".toList ++ ' ' :: Text.Quoted.literal path.toList) ++
        [Bracket.round.closeChar] := by
    simp [Script.command, Bracket.openChar, Bracket.closeChar]
  rw [text]
  exact call

/-- **The call is read as it is meant**, whatever characters the path has. -/
theorem read?_command (path : String) : Value.read? (Script.command path).toList = .ok (loadForm path) :=
  read?_of_spells (spells_command path)

/-! ## Outcomes but for trace records -/

namespace Context

variable {ctx : Context} {m n : Machine}

theorem Agree.ofRun {α : Type} {x y : Run α} (h : ctx.Agree (x n) (y m)) :
    ctx.Agree (Interpreter.ofRun x n) (Interpreter.ofRun y m) := by
  unfold Interpreter.ofRun
  unfold Agree at h ⊢
  generalize x n = r at h
  generalize y m = s at h
  cases h with
  | none => exact .none
  | @some r s h =>
    obtain ⟨r, k⟩ := r
    obtain ⟨s, k'⟩ := s
    obtain ⟨rfl, alike⟩ := h
    cases r <;> exact .some ⟨rfl, alike⟩

theorem Alike.like (h : ctx.Alike n m) : n.Like m := ⟨n.records, h.eq_withRecords⟩

end Context

/-- A trace record that can always be made leaves the machine alike. -/
theorem record_trace {message : Message} (h : message.Ends) (ctx : Context) (n : Machine) :
    ∃ n', Recorded ctx .trace message n n' ∧ ctx.Alike n' n := Context.record_alike_of_isSome fun _ => h _

/-! ## The call in the place of a form -/

section

variable {ctx : Context} {e root : FrameId} {id : ClosureId} {bs : Bindings} {m n : Machine} {path : String}

/-- When the elements of the form are evaluated, trace records are made. -/
theorem each_loadForm (ctx : Context) (path : String) (hl : m.lookup e "load-file" = some (loader root id)) :
    ∃ n, Step.each evaluate ctx e [.symbol "load-file", .text path] m = some (.ok [loader root id, .text path], n) ∧
      ctx.Alike n m := by
  obtain ⟨n₁, named, hn₁⟩ := record_trace (ends_value (.symbol "load-file") "evaluate_ast ") ctx m
  have bound : n₁.lookup e "load-file" = some (loader root id) := by rw [hn₁.like.lookup_eq, hl]
  have head := (Evaluates.expanded (.done rfl) (.symbol named bound)).run
  obtain ⟨n₂, noted, hn₂⟩ :=
    record_trace (ends_value (.text path) "evaluate_ast ") (ctx.holdValue (loader root id)) n₁
  have operand := (Evaluates.expanded (e := e) (.done rfl) (.literal rfl noted)).run
  refine ⟨n₂, ?_, Context.Alike.trans hn₂ hn₁⟩
  exact (Run.bind_ok head).trans (Run.bind_ok ((Run.bind_ok operand).trans rfl))

/-- The form is evaluated as a call in its place. -/
theorem evaluate_loadForm_inPlace (ctx : Context) (path : String)
    (hl : m.lookup e "load-file" = some (loader root id)) :
    ∃ n, ctx.Alike n m ∧ evaluate ctx e (loadForm path) m =
      Call.inPlace (ctx.hold e (loadForm path)) ctx (loader root id) [.text path] n := by
  have noCall : m.macroCall? e (loadForm path) = none := by
    simp only [loadForm, Machine.macroCall?, hl]
    rfl
  obtain ⟨n₁, recorded, hn₁⟩ := record_trace (ends_value (isData_call (.text path)) "apply ") ctx m
  have bound : n₁.lookup e "load-file" = some (loader root id) := by rw [hn₁.like.lookup_eq, hl]
  obtain ⟨n₂, elements, hn₂⟩ := each_loadForm (ctx.hold e (loadForm path)) path bound
  exact ⟨n₂, Context.Alike.trans hn₂ hn₁, Call.evaluate_call noCall (by decide) recorded elements⟩

/-- Where the form of a file is evaluated, what the call of `load-file` holds is held anyway. -/
theorem evaluating_same (ctx : Context) (root : FrameId) (id : ClosureId) (path : String) (e : FrameId) (form : Value) :
    ((ctx.holdCall (loader root id) [.text path] e loadBody).evaluating e root form).Same
      (ctx.evaluating e root form) := by
  let plain := ctx.evaluating e root form
  have le : ctx.LE (ctx.holdCall (loader root id) [.text path] e loadBody) := Call.holdCall_le (.refl ctx) _ _ _ _
  refine ⟨⟨rfl, rfl, fun f hf => ?_, fun {v} hv => ?_⟩,
    (((le.holdFrame e).holdItems [loadBody]).holdItems [.rooted .eval root, form]).holdFrame root⟩
  · change f ∈ root :: e :: e :: ctx.held.frames at hf
    change f ∈ root :: e :: ctx.held.frames
    simpa using hf
  · have owned {v : Value} (hv : v ∈ plain.held.values) : v.owned.LE plain.held.owned := Holds.le_owned hv
    change v ∈ .rooted .eval root :: form :: loadBody :: loadBody :: loader root id :: .text path ::
      ctx.held.values at hv
    have kept : plain.held.values = .rooted .eval root :: form :: loadBody :: ctx.held.values := rfl
    simp only [List.mem_cons] at hv
    rcases hv with rfl | rfl | rfl | rfl | rfl | rfl | hv
    · exact owned (by simp [kept])
    · exact owned (by simp [kept])
    · exact owned (by simp [kept])
    · exact owned (by simp [kept])
    · -- the closure owns the root, which is held as a frame
      refine ⟨fun f hf => ?_, List.nil_subset _⟩
      obtain rfl : f = root := List.mem_singleton.1 hf
      exact (plain.held.mem_owned.1 f).2 (.inl List.mem_cons_self)
    · exact Owned.none_le _
    · exact owned (by simp [kept, hv])

section

variable (hroot : m.frames[root]? = some ⟨bs, none⟩) (hb : bs.LoadsFiles root id)
include hroot hb

/-- What a call of `load-file` holds besides is of no use to the body: a failure on the way is no matter of what is
held, and the form of the file is evaluated while the root and the frame of the call are held anyway. -/
theorem evaluate_loadBody_held (hn : n.Like (m.loading root path)) (ctx : Context) :
    evaluate (ctx.holdCall (loader root id) [.text path] m.frames.size loadBody) m.frames.size loadBody n =
      evaluate ctx m.frames.size loadBody n := by
  let holding := ctx.holdCall (loader root id) [.text path] m.frames.size loadBody
  have le : ctx.LE holding := Call.holdCall_le (.refl ctx) _ _ _ _
  have failed {fault : EvalError} (hf : ∀ name, fault ≠ .detached name)
      (h : Comes ctx.files m.frames.size (m.loading root path) loadBody (.error fault)) :
      evaluate holding m.frames.size loadBody n = evaluate ctx m.frames.size loadBody n := by
    obtain ⟨n', run, -⟩ := h ctx rfl n hn
    rw [run]
    refine (evaluate_of_le le run).resolve_left ?_
    rintro ⟨name, gone⟩
    exact hf name (Except.error.inj gone)
  cases hf : ctx.files path with
  | error fault => exact failed (by simp) (comes_loadBody_missing hroot hb hf)
  | ok source =>
    cases hr : Value.read? (Interpreter.program source).toList with
    | error fault => exact failed (by simp) (comes_loadBody_error hroot hb hf hr)
    | ok form =>
      obtain ⟨n', -, evaluates⟩ := evaluate_loadBody hroot hb hf hr hn
      have same : (holding.evaluating m.frames.size root form).Same (ctx.evaluating m.frames.size root form) :=
        evaluating_same ctx root id path m.frames.size form
      rw [evaluates holding le, evaluates ctx (.refl ctx)]
      exact congrFun (evaluate_of_same same root form) n'

/-- A call of `load-file` in the place of a form is the call to its end. -/
theorem inPlace_loader {inner : Context} (hi : ctx.LE inner) :
    Call.inPlace inner ctx (loader root id) [.text path] m =
      Call.finish evaluate ctx (loader root id) [.text path] m := by
  obtain ⟨n, hn, called⟩ := call_loader ctx root id path m
  refine (called inner (fun _ _ => ctx) hi).trans (.trans ?_ (called ctx (ctx.holdCall _ _) (.refl ctx)).symm)
  exact (evaluate_loadBody_held hroot hb hn ctx).symm

/-- **The form that loads a file** comes to what `load-file` applied to the path comes to. -/
theorem agree_loadForm (ctx : Context) (path : String) (hl : m.lookup e "load-file" = some (loader root id)) :
    ctx.Agree (evaluate ctx e (loadForm path) m) (Call.finish evaluate ctx (loader root id) [.text path] m) := by
  obtain ⟨n, hn, call⟩ := evaluate_loadForm_inPlace ctx path hl
  have hroot' : n.frames[root]? = some ⟨bs, none⟩ := by rw [hn.like.frames_eq, hroot]
  rw [call, inPlace_loader hroot' hb (.hold_self ctx e _)]
  exact hn.agree (simulation_untraced.finish (fun hc e form => simulation_untraced.evaluate hc e form) rfl _ _)

end

end

/-! ## Scripts -/

/-- A name that `load-file` does not use can be bound. -/
theorem Bindings.LoadsFiles.insert {bs : Bindings} {root : FrameId} {id : ClosureId} (h : bs.LoadsFiles root id)
    {name : String} (hn : name ∉ ["load-file", "eval", "read-string", "str", "slurp", "do"]) (v : Value) :
    (bs.insert name v).LoadsFiles root id := by
  have other {used : String} (hu : used ∈ ["load-file", "eval", "read-string", "str", "slurp", "do"]) :
      (bs.insert name v).find? used = bs.find? used := by
    rw [Bindings.find?_insert, if_neg]
    rintro rfl
    exact hn hu
  exact ⟨(other (by simp)).trans h.loadFile, (other (by simp)).trans h.eval, (other (by simp)).trans h.readString,
    (other (by simp)).trans h.str, (other (by simp)).trans h.slurp,
    fun hf => h.sequence ((other (by simp)).symm.trans hf)⟩

namespace Script

/-- The machine in which a script is loaded: its arguments are bound in the root, and that it runs is recorded. -/
def announced (ctx : Context) (root : FrameId) (path : String) (arguments : List String) (m : Machine) : Machine :=
  let provided := m.bind root Interpreter.argumentsName (.list (arguments.map .text))
  if ctx.records .info then provided.addRecord .info ("running script " ++ path) else provided

/-- What becomes of a script: the file is the one that the path names. If it cannot be read, or its text is no program,
nothing is evaluated but the call of `load-file`; otherwise what the program reads as is evaluated in the root, and its
value is printed. -/
def Loads (ctx : Context) (root : FrameId) (path : String) (m : Machine) (outcome : Outcome Unit) : Prop :=
  match ctx.files path with
  | .error fault => ∃ n, n.Like (m.loading root path) ∧ outcome = some (.error (.eval (.file fault)), n)
  | .ok source =>
    match Value.read? (Interpreter.program source).toList with
    | .error fault => ∃ n, n.Like (m.loading root path) ∧ outcome = some (.error (.eval (.unreadable fault)), n)
    | .ok form => ∃ c n, ctx.LE c ∧ root ∈ c.held.frames ∧ n.Like (m.loading root path) ∧
        outcome = discard (Interpreter.printed (Interpreter.ofRun (evaluate c root form) n))

/-- How a script ends, given what `load-file` comes to: with the same failure; or well, if `load-file` does and its value
has a print; but not at all, if an atom that contains itself is met in that value. The machines are the same but for
trace records. -/
inductive Ends (ctx : Context) : Outcome Value → Outcome Unit → Prop
  | never : Ends ctx none none
  | failed {fault : Failure} {m n : Machine} (h : ctx.Alike n m) :
    Ends ctx (some (.error fault, m)) (some (.error fault, n))
  | done {v : Value} {m n : Machine} (h : ctx.Alike n m) (hv : ∀ a, m.Meets v a → ¬m.Meets (m.atomValue a) a) :
    Ends ctx (some (.ok v, m)) (some (.ok (), n))
  | circular {v : Value} {m : Machine} {a : AtomId} (hv : m.Meets v a) (ha : m.Meets (m.atomValue a) a) :
    Ends ctx (some (.ok v, m)) none

theorem Ends.eq_none {ctx : Context} {v : Value} {m : Machine} {a : AtomId} {out : Outcome Unit}
    (h : Ends ctx (some (.ok v, m)) out) (hv : m.Meets v a) (ha : m.Meets (m.atomValue a) a) : out = none := by
  cases h with
  | done _ never => exact absurd ha (never a hv)
  | circular => rfl

/-- To print what an evaluation gives, and to let the print go, is to end so. -/
theorem ends_discard_printed {ctx : Context} {x y : Outcome Value} (h : ctx.Agree y x) :
    Ends ctx x (discard (Interpreter.printed y)) := by
  cases h with
  | none => exact .never
  | @some s r h =>
    obtain ⟨s, n⟩ := s
    obtain ⟨r, m⟩ := r
    obtain ⟨rfl, alike⟩ : s = r ∧ ctx.Alike n m := h
    cases s with
    | error fault => exact .failed alike
    | ok v =>
      have atoms : n.atoms = m.atoms := by rw [alike.eq_withRecords, Machine.withRecords]
      have printed : discard (Interpreter.printed (some (.ok v, n))) =
          (m.print .readable v).map fun _ => (.ok (), n) := by
        rw [Interpreter.printed, Machine.print_of_atoms_eq atoms, discard, Option.map_map]
        rfl
      rw [printed]
      cases hp : m.print .readable v with
      | some t => exact .done alike (Machine.print_isSome_iff_not_meets.1 (Option.isSome_of_eq_some hp))
      | none =>
        have endless : ¬∀ a, m.Meets v a → ¬m.Meets (m.atomValue a) a := fun ends => by
          have some : (m.print .readable v).isSome = true := Machine.print_isSome_iff_not_meets.2 ends
          rw [hp] at some
          cases some
        push Not at endless
        obtain ⟨a, met, circular⟩ := endless
        exact .circular met circular

section

variable {ctx : Context} {root : FrameId} {id : ClosureId} {bs : Bindings} {m : Machine}

/-- Launching a script is evaluating the call of `load-file` with the path, and printing its value. -/
theorem launch_eq (ctx : Context) (root : FrameId) (path : String) (arguments : List String) (m : Machine) :
    launch ctx root path arguments m = discard (Interpreter.printed
      (Interpreter.ofRun (evaluate ctx root (loadForm path)) (announced ctx root path arguments m))) := by
  have announces : Interpreter.ofRun (do
      provide root arguments
      Run.record ctx .info (fun _ => some ("running script " ++ path)) : Run Unit) m =
        some (.ok (), announced ctx root path arguments m) := by
    unfold announced Run.record
    cases ctx.records .info <;> rfl
  rw [launch, announces]
  simp only [Interpreter.rep, Interpreter.evaluateText, Interpreter.withForm, read?_command]

theorem announced_root (hroot : m.frames[root]? = some ⟨bs, none⟩) (ctx : Context) (path : String)
    (arguments : List String) : (announced ctx root path arguments m).frames[root]? =
      some ⟨bs.insert Interpreter.argumentsName (.list (arguments.map .text)), none⟩ := by
  have bound : (m.bind root Interpreter.argumentsName (.list (arguments.map .text))).frames[root]? =
      some ⟨bs.insert Interpreter.argumentsName (.list (arguments.map .text)), none⟩ := by
    rw [Machine.bind, Array.getElem?_modify, if_pos rfl, hroot]
    rfl
  unfold announced
  split <;> exact bound

/-- What the evaluation of the call comes to, once it is printed. -/
theorem loads_loadForm (hroot : m.frames[root]? = some ⟨bs, none⟩) (hb : bs.LoadsFiles root id) (ctx : Context)
    (path : String) : Loads ctx root path m
      (discard (Interpreter.printed (Interpreter.ofRun (evaluate ctx root (loadForm path)) m))) := by
  obtain ⟨n, hn, call⟩ := evaluate_loadForm ctx path ((Machine.lookup_root hroot _).trans hb.loadFile)
  have outcome : Interpreter.ofRun (evaluate ctx root (loadForm path)) m =
      Interpreter.ofRun (evaluate ctx m.frames.size loadBody) n := by rw [Interpreter.ofRun, call]; rfl
  have failed {fault : EvalError} (h : Comes ctx.files m.frames.size (m.loading root path) loadBody (.error fault)) :
      ∃ n', n'.Like (m.loading root path) ∧
        discard (Interpreter.printed (Interpreter.ofRun (evaluate ctx m.frames.size loadBody) n)) =
          some (.error (.eval fault), n') := by
    obtain ⟨n', run, hn'⟩ := h ctx rfl n hn
    refine ⟨n', hn', ?_⟩
    rw [Interpreter.ofRun, run]
    rfl
  rw [outcome]
  unfold Loads
  cases hf : ctx.files path with
  | error fault => exact failed (comes_loadBody_missing hroot hb hf)
  | ok source =>
    cases hr : Value.read? (Interpreter.program source).toList with
    | error fault =>
      simp only [hr]
      exact failed (comes_loadBody_error hroot hb hf hr)
    | ok form =>
      simp only [hr]
      obtain ⟨n', hn', evaluates⟩ := evaluate_loadBody hroot hb hf hr hn
      refine ⟨_, n', .evaluating ctx m.frames.size root form, List.mem_cons_self, hn', ?_⟩
      rw [Interpreter.ofRun, evaluates ctx (.refl ctx)]
      rfl

end

end Script

/-- **The path of a script is taken literally.** What is read is the call of `load-file` with the path, whatever
characters it has. In a new root the arguments are bound as a list of texts; then launching comes to what `load-file`
applied to the path comes to, with the same effects but for trace records, unless that is a value in which an atom that
contains itself is met: its print, which is made but not shown, has no end. So the file is the one that the path names,
and nothing of the path is evaluated. -/
theorem script_path_is_taken_literally (path : String) (arguments : List String) :
    Value.read? (Script.command path).toList = .ok (.list [.symbol "load-file", .text path]) ∧
    ∀ (ctx₀ ctx : Context) (m₀ m₁ m : Machine) (root : FrameId),
      Interpreter.newRoot ctx₀ m₀ = some (.ok root, m₁) → m.frames = m₁.frames →
      ∃ id, (Script.announced ctx root path arguments m).lookup root "*ARGV*" = some (.list (arguments.map .text)) ∧
        (Script.announced ctx root path arguments m).lookup root "load-file" = some (loader root id) ∧
        Script.Ends ctx (Interpreter.ofRun (Call.finish evaluate ctx (loader root id) [.text path])
          (Script.announced ctx root path arguments m)) (Script.launch ctx root path arguments m) ∧
        Script.Loads ctx root path (Script.announced ctx root path arguments m)
          (Script.launch ctx root path arguments m) := by
  refine ⟨read?_command path, fun ctx₀ ctx m₀ m₁ m root made frames => ?_⟩
  obtain ⟨m', made', like⟩ := Interpreter.newRoot_eq ctx₀ m₀
  obtain ⟨rfl, rfl⟩ : m₀.frames.size = root ∧ m' = m₁ := by
    rw [made'] at made
    simpa using made
  obtain ⟨bs, id, hroot, hb, -⟩ := (Interpreter.canLoad_withRoot like).root
  rw [← frames] at hroot
  have announced := Script.announced_root hroot ctx path arguments
  have loads : (bs.insert Interpreter.argumentsName (.list (arguments.map .text))).LoadsFiles m₀.frames.size id :=
    hb.insert (by decide) _
  have loadFile := (Machine.lookup_root announced "load-file").trans loads.loadFile
  refine ⟨id, ?_, loadFile, ?_, ?_⟩
  · rw [Machine.lookup_root announced, Bindings.find?_insert]
    rfl
  · rw [Script.launch_eq]
    exact Script.ends_discard_printed (agree_loadForm announced loads ctx path loadFile).ofRun
  · rw [Script.launch_eq]
    exact Script.loads_loadForm announced loads ctx path

/-- A path that would end its literal and go on with code, if it were not quoted. -/
def trickyPath : String := "\") (slurp \"b\\\n;]"

/-- A file of one opening bracket, under that path only. -/
def trickyFiles : Files := fun path => if path = trickyPath then .ok "(" else .error .notFound

theorem script_path_is_taken_literally_tricky :
    let ctx : Context := ⟨trickyFiles, none, .none⟩
    ∃ m, Interpreter.newRoot ctx Machine.empty = some (.ok 0, m) ∧
      (Script.announced ctx 0 trickyPath ["a", "1"] m).lookup 0 "*ARGV*" = some (.list [.text "a", .text "1"]) ∧
      ∃ n, Script.launch ctx 0 trickyPath ["a", "1"] m =
        some (.error (.eval (.unreadable (.unbalanced .list))), n) := by
  intro ctx
  obtain ⟨m, made, -⟩ := Interpreter.newRoot_eq ctx Machine.empty
  obtain ⟨id, provided, -, -, loads⟩ :=
    (script_path_is_taken_literally trickyPath ["a", "1"]).2 ctx ctx Machine.empty m m 0 made rfl
  have file : trickyFiles trickyPath = .ok "(" := if_pos rfl
  have unread : Value.read? (Interpreter.program "(").toList = .error (.unbalanced .list) := by cbv
  simp only [Script.Loads, ctx, file, unread] at loads
  obtain ⟨n, -, run⟩ := loads
  exact ⟨m, made, provided, n, run⟩

/-! ### A script that never ends -/

/-- Puts an atom into itself and ends the program there, so that the atom is what `load-file` comes to. -/
def circularText : String := "(def! a (atom nil)) (reset! a a) )"

/-- The form of the text before its last bracket. -/
def circularForms : List Value :=
  [.list [.symbol "def!", .symbol "a", .list [.symbol "atom", .nil]],
    .list [.symbol "reset!", .symbol "a", .symbol "a"]]

theorem read?_circular : Value.read? (Interpreter.program circularText).toList = .ok (doForm circularForms) := by cbv

/-- In a new root in which the script is loaded, the forms leave an atom that holds itself. -/
theorem evaluate_circular {c : Context} (hc : c.recorded = none) {path : String} {m n : Machine}
    (hm : m.Like (Interpreter.withRoot .empty))
    (hn : n.Like ((Script.announced (withText circularText) 0 path [] m).loading 0 path)) :
    ∃ n', evaluate c 0 (doForm circularForms) n = some (.ok (.atom 0), n') ∧ n'.atomValue 0 = .atom 0 := by
  obtain ⟨files, recorded, held⟩ := c
  obtain rfl : recorded = none := hc
  obtain ⟨rs, rfl⟩ := hm
  obtain ⟨rs', rfl⟩ := hn
  exact ⟨_, evaluate_of_evalWithin 4 _ _ _ _ _ rfl, rfl⟩

/-- What `load-file` comes to is an atom that holds itself; the script comes to no end. -/
theorem script_prints_without_end :
    let ctx := withText circularText
    ∃ m id n, Interpreter.newRoot ctx .empty = some (.ok 0, m) ∧
      (Script.announced ctx 0 "s.mal" [] m).lookup 0 "load-file" = some (loader 0 id) ∧
      Interpreter.ofRun (Call.finish evaluate ctx (loader 0 id) [.text "s.mal"])
        (Script.announced ctx 0 "s.mal" [] m) = some (.ok (.atom 0), n) ∧
      Script.launch ctx 0 "s.mal" [] m = none := by
  intro ctx
  obtain ⟨m, made, like⟩ := Interpreter.newRoot_eq ctx .empty
  obtain ⟨bs, id, hroot, hb, -⟩ := (Interpreter.canLoad_withRoot like).root
  have announced : (Script.announced ctx 0 "s.mal" [] m).frames[0]? = _ := Script.announced_root hroot ctx "s.mal" []
  have loads : (bs.insert Interpreter.argumentsName (.list [])).LoadsFiles 0 id := hb.insert (by decide) _
  have loadFile := (Machine.lookup_root announced "load-file").trans loads.loadFile
  -- the call of `load-file` evaluates the forms in the root
  obtain ⟨k, hk, call⟩ := call_loader ctx 0 id "s.mal" (Script.announced ctx 0 "s.mal" [] m)
  have file : ctx.files "s.mal" = .ok circularText := rfl
  obtain ⟨k', hk', body⟩ := evaluate_loadBody announced loads file read?_circular hk
  obtain ⟨n, forms, self⟩ := evaluate_circular (c := (ctx.holdCall (loader 0 id) [.text "s.mal"] _ loadBody).evaluating
    (Script.announced ctx 0 "s.mal" [] m).frames.size 0 (doForm circularForms)) rfl like hk'
  have loaded : Interpreter.ofRun (Call.finish evaluate ctx (loader 0 id) [.text "s.mal"])
      (Script.announced ctx 0 "s.mal" [] m) = some (.ok (.atom 0), n) := by
    rw [Interpreter.ofRun, Call.finish, call ctx _ (.refl ctx), body _ (Call.holdCall_le (.refl ctx) _ _ _ _), forms]
    rfl
  have ends := Script.ends_discard_printed (agree_loadForm announced loads ctx "s.mal" loadFile).ofRun
  rw [← Script.launch_eq, loaded] at ends
  have met : n.Meets (.atom 0) 0 := .here List.mem_cons_self
  exact ⟨m, id, n, made, loadFile, loaded, ends.eq_none met (by rwa [self])⟩

end MiniLisp

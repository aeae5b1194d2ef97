import Mathlib
import MiniLisp.Proofs.LoadFile

/-!
# New roots

Making a root always comes to its end. The text of the prelude spells three definitions (`read?_prelude`), each of which
comes to a closure and binds it in the root (`evaluate_definition`), and the root is left with its builtins and those
closures (`newRoot_eq`). So a new root has all that `load-file` needs (`canLoad_withRoot`).
-/

namespace MiniLisp

open Token (inProgram)

/-! ## The definitions of the prelude -/

/-- A form that binds a name to a closure or to a macro. -/
structure Definition where
  isMacro : Bool
  name : String
  parameters : List String
  params : Params
  body : Value

namespace Definition

/-- The special form at the head. -/
def definer (d : Definition) : SpecialForm := if d.isMacro then .defineMacro else .define

/-- The form `(fn* (parameters…) body)`. -/
def function (d : Definition) : Value := .list [.symbol "fn*", .list (d.parameters.map .symbol), d.body]

def form (d : Definition) : Value := .list [.symbol d.definer.name, .symbol d.name, d.function]

end Definition

def notBody : Value := .list [.symbol "if", .symbol "a", .bool false, .bool true]

def condBody : Value :=
  .list [.symbol "if", .list [.symbol ">", .list [.symbol "count", .symbol "xs"], .int 0],
    .list [.symbol "list", .list [.symbol "quote", .symbol "if"], .list [.symbol "first", .symbol "xs"],
      .list [.symbol "if", .list [.symbol ">", .list [.symbol "count", .symbol "xs"], .int 1],
        .list [.symbol "nth", .symbol "xs", .int 1], .list [.symbol "throw", .text "odd number of forms to cond"]],
      .list [.symbol "cons", .list [.symbol "quote", .symbol "cond"],
        .list [.symbol "rest", .list [.symbol "rest", .symbol "xs"]]]]]

def prelude : List Definition :=
  [⟨false, "not", ["a"], ⟨["a"], none⟩, notBody⟩, ⟨false, "load-file", ["f"], ⟨["f"], none⟩, loadBody⟩,
    ⟨true, "cond", ["&", "xs"], ⟨[], some "xs"⟩, condBody⟩]

/-- The form that the program of the prelude reads as. -/
def preludeForm : Value := doForm (prelude.map Definition.form ++ [.nil])

/-! ## Its text -/

def words (names : List String) : List Token := names.map fun name => .plain name.toList

def inBrackets (ts : List Token) : List Token := .opening .round :: (ts ++ [.closing .round])

def notTokens : List Token :=
  inBrackets (words ["def!", "not"] ++
    inBrackets (words ["fn*"] ++ inBrackets (words ["a"]) ++ inBrackets (words ["if", "a", "false", "true"])))

def loadTokens : List Token :=
  inBrackets (words ["def!", "load-file"] ++
    inBrackets (words ["fn*"] ++ inBrackets (words ["f"]) ++
      inBrackets (words ["eval"] ++ inBrackets (words ["read-string"] ++
        inBrackets (words ["str"] ++ [.string "(do ".toList] ++ inBrackets (words ["slurp", "f"]) ++
          [.string "\\nnil)".toList])))))

def condTokens : List Token :=
  inBrackets (words ["defmacro!", "cond"] ++
    inBrackets (words ["fn*"] ++ inBrackets (words ["&", "xs"]) ++ inBrackets (words ["if"] ++
      inBrackets (words [">"] ++ inBrackets (words ["count", "xs"]) ++ words ["0"]) ++
      inBrackets (words ["list"] ++ [.shorthand .quote] ++ words ["if"] ++ inBrackets (words ["first", "xs"]) ++
        inBrackets (words ["if"] ++ inBrackets (words [">"] ++ inBrackets (words ["count", "xs"]) ++ words ["1"]) ++
          inBrackets (words ["nth", "xs", "1"]) ++
          inBrackets (words ["throw"] ++ [.string "odd number of forms to cond".toList])) ++
        inBrackets (words ["cons"] ++ [.shorthand .quote] ++ words ["cond"] ++
          inBrackets (words ["rest"] ++ inBrackets (words ["rest", "xs"])))))))

set_option maxRecDepth 4096 in
theorem scan?_prelude :
    Token.scan? Interpreter.preludeText.toList = some (notTokens ++ loadTokens ++ condTokens) := by
  rw [show Interpreter.preludeText = String.ofList _ from rfl, String.toList_ofList]
  decide +kernel

theorem run_prelude :
    Reader.run (inProgram (notTokens ++ loadTokens ++ condTokens)) [] = .ok (preludeForm, []) := by rfl

/-- The prelude is read as its definitions. -/
theorem read?_prelude : Value.read? (Interpreter.program Interpreter.preludeText).toList = .ok preludeForm := by
  rw [Value.read?, scan?_program_of_some scan?_prelude]
  exact congrArg (Except.map (·.1)) run_prelude

/-! ## Evaluating definitions -/

/-- What a definition binds its name to. For a macro, a closure of its own is made of the first one. -/
def Definition.value (d : Definition) (root : FrameId) (m : Machine) : Value :=
  .closure (if d.isMacro then m.closures + 1 else m.closures) d.params d.body root d.isMacro

/-- The machine with the name of a definition bound in a root. -/
def Machine.define (root : FrameId) (m : Machine) (d : Definition) : Machine :=
  (if d.isMacro then m.newClosure.2.newClosure.2 else m.newClosure.2).bind root d.name (d.value root m)

theorem Machine.Like.define {m n : Machine} (h : n.Like m) (root : FrameId) (d : Definition) :
    (n.define root d).Like (m.define root d) := by
  obtain ⟨rs, rfl⟩ := h
  unfold Machine.define
  split <;> exact ⟨rs, rfl⟩

/-- A root leaves special forms alone if it binds none of their names. So it has no macro calls in their place. -/
def Bindings.LeavesForms (bs : Bindings) : Prop := ∀ s : SpecialForm, bs.find? s.name = none

namespace Bindings.LeavesForms

variable {bs : Bindings} (h : bs.LeavesForms)
include h

theorem insert {name : String} (hn : SpecialForm.ofName? name = none) (v : Value) :
    (bs.insert name v).LeavesForms := by
  intro s
  have other : name ≠ s.name := by
    rintro rfl
    rw [SpecialForm.ofName?_name] at hn
    cases hn
  rw [find?_insert, if_neg other, h s]

theorem macroCall? {m : Machine} {root : FrameId} (hroot : m.frames[root]? = some ⟨bs, none⟩) (s : SpecialForm)
    (operands : List Value) : m.macroCall? root (.list (.symbol s.name :: operands)) = none :=
  Machine.macroCall?_eq_none (fun f hf => by rw [Machine.lookup_root hroot, h s] at hf; cases hf) operands

end Bindings.LeavesForms

/-- A definition that comes to a closure: its parameters are well formed, and it binds no special form. -/
structure Definition.WellFormed (d : Definition) : Prop where
  signature : Step.signature (.list (d.parameters.map .symbol)) = .ok d.params
  name : SpecialForm.ofName? d.name = none
  isData : d.form.IsData

theorem isData_list {xs : List Value} (h : (Value.list xs).IsData) : ∀ x ∈ xs, x.IsData := by
  cases h with
  | list h => exact h

theorem wellFormed_prelude : ∀ d ∈ prelude, d.WellFormed := by
  intro d hd
  have data : d.form.IsData := isData_list (Value.isData_of_read? read?_prelude) _
    (List.mem_cons_of_mem _ (List.mem_append_left _ (List.mem_map_of_mem hd)))
  simp only [prelude, List.mem_cons, List.not_mem_nil, or_false] at hd
  rcases hd with rfl | rfl | rfl
  all_goals exact ⟨rfl, by decide, data⟩

section

variable {root : FrameId} {bs : Bindings} {n : Machine} {d : Definition}

theorem Machine.define_root (h : n.frames[root]? = some ⟨bs, none⟩) (d : Definition) :
    (n.define root d).frames[root]? = some ⟨bs.insert d.name (d.value root n), none⟩ := by
  have same : (if d.isMacro then n.newClosure.2.newClosure.2 else n.newClosure.2).frames = n.frames := by split <;> rfl
  rw [Machine.define, Machine.bind, Array.getElem?_modify, if_pos rfl, same, h]
  rfl

/-- The part of a definition that makes a closure. -/
theorem evaluates_function (hroot : n.frames[root]? = some ⟨bs, none⟩) (hb : bs.LeavesForms) (hd : d.WellFormed)
    (ctx : Context) : ∃ n₁ : Machine, n₁.Like n ∧ Evaluates ctx root d.function n []
      (.ok (.closure n₁.closures d.params d.body root false), n₁.newClosure.2) := by
  have data : d.function.IsData := isData_list hd.isData _ (by simp)
  obtain ⟨n₁, recorded, hn⟩ := record_like (ends_value data "apply ") ctx .trace n
  have noCall := hb.macroCall? hroot .function [.list (d.parameters.map .symbol), d.body]
  exact ⟨n₁, hn, .expanded (.done noCall) (.special recorded (by decide) (.function hd.signature))⟩

/-- A definition binds its name to a closure. -/
theorem evaluate_definition (hroot : n.frames[root]? = some ⟨bs, none⟩) (hb : bs.LeavesForms) (hd : d.WellFormed)
    (ctx : Context) : ∃ v n', evaluate ctx root d.form n = some (.ok v, n') ∧ n'.Like (n.define root d) := by
  let inner := ctx.hold root d.form
  have noCall := hb.macroCall? hroot d.definer [.symbol d.name, d.function]
  obtain ⟨n₁, recorded, hn₁⟩ := record_like (ends_value hd.isData "apply ") ctx .trace n
  obtain ⟨n₂, hn₂, made⟩ := evaluates_function (hn₁.frames_eq ▸ hroot) hb hd inner
  have like := (hn₂.trans hn₁).define root d
  have ends : (Step.bindText d.definer (.symbol d.name) (d.value root n₂)).Ends := fun _ => by rfl
  obtain ⟨n₃, bound, hn₃⟩ := record_like ends inner .debug (n₂.define root d)
  have performs : Performs ctx inner root d.definer [.symbol d.name, d.function] n₁ []
      (.ok (d.value root n₂), n₃) := by
    obtain ⟨isMacro, name, parameters, params, body⟩ := d
    cases isMacro with
    | false => exact .define made (.symbol bound)
    | true => exact .defineMacro made (.symbol bound)
  exact ⟨_, n₃, (Evaluates.expanded (.done noCall)
    (.special recorded (SpecialForm.ofName?_name d.definer) performs)).run, hn₃.trans like⟩

/-- Definitions in order. -/
theorem inOrder_definitions {ds : List Definition} (hroot : n.frames[root]? = some ⟨bs, none⟩) (hb : bs.LeavesForms)
    (hd : ∀ d ∈ ds, d.WellFormed) {m : Machine} (hn : n.Like m) (ctx : Context) :
    ∃ n', inOrder ctx root (ds.map Definition.form) n = some (.ok (), n') ∧
      n'.Like (ds.foldl (Machine.define root) m) := by
  induction ds generalizing n m bs with
  | nil => exact ⟨n, rfl, hn⟩
  | cons d ds ih =>
    have wf := hd d List.mem_cons_self
    obtain ⟨v, n₁, first, hn₁⟩ := evaluate_definition hroot hb wf ctx
    obtain ⟨n₂, rest, hn₂⟩ := ih (hn₁.frames_eq ▸ Machine.define_root hroot d) (hb.insert wf.name _)
      (fun d hd' => hd d (List.mem_cons_of_mem _ hd')) (hn₁.trans (hn.define root d))
    exact ⟨n₂, (Run.bind_ok first).trans rest, hn₂⟩

end

/-! ## New roots -/

namespace Interpreter

/-- The machine with a new root. -/
def withRoot (m : Machine) : Machine :=
  prelude.foldl (Machine.define m.frames.size) (m.addFrame (rootBindings m.frames.size) none).2

theorem leavesForms_rootBindings (root : FrameId) : (rootBindings root).LeavesForms := fun s => by cases s <;> rfl

/-- An equation of functions: to compare what they give would be to read the text of the prelude. -/
theorem loadPrelude_of_read? {form : Value} (h : Value.read? (program preludeText).toList = .ok form) :
    loadPrelude = fun ctx root =>
      Run.bind (evaluate ctx root form) fun _ => Run.record ctx .debug fun _ => some "prelude loaded" := by
  delta loadPrelude
  rw [h]
  rfl

/-- The prelude always comes to its end in a root. -/
theorem loadPrelude_eq {root : FrameId} {n : Machine} (hroot : n.frames[root]? = some ⟨rootBindings root, none⟩)
    (ctx : Context) : ∃ n', loadPrelude ctx root n = some (.ok (), n') ∧
      n'.Like (prelude.foldl (Machine.define root) n) := by
  have leaves := leavesForms_rootBindings root
  obtain ⟨n₁, hn₁, forms⟩ := evaluate_doForm (leaves.macroCall? hroot .sequence _) (Value.isData_of_read? read?_prelude)
    ctx
  rw [List.dropLast_concat, List.getLastD_concat] at forms
  obtain ⟨n₂, defined, hn₂⟩ :=
    inOrder_definitions (hn₁.frames_eq ▸ hroot) leaves wellFormed_prelude hn₁ (ctx.hold root preludeForm)
  obtain ⟨n₃, last, hn₃⟩ := comes_nil (e := root) ctx rfl n₂ hn₂
  obtain ⟨n₄, recorded, hn₄⟩ := record_like (ends_text "prelude loaded") ctx .debug n₃
  refine ⟨n₄, ?_, hn₄.trans hn₃⟩
  rw [loadPrelude_of_read? read?_prelude]
  exact (Run.bind_ok (forms.trans ((Run.bind_ok defined).trans last))).trans recorded

theorem newRoot_of_loadPrelude {ctx : Context} {m m' : Machine}
    (h : loadPrelude (ctx.holdFrame m.frames.size) m.frames.size (m.addFrame (rootBindings m.frames.size) none).2 =
      some (.ok (), m')) : newRoot ctx m = some (.ok m.frames.size, m') := by
  have parts : newRoot ctx = Run.bind (Run.change fun m => m.addFrame (rootBindings m.frames.size) none) fun root =>
      Run.bind (loadPrelude (ctx.holdFrame root) root) fun _ => Run.pure root := rfl
  have made : (Run.change fun m => m.addFrame (rootBindings m.frames.size) none) m =
      some (.ok m.frames.size, (m.addFrame (rootBindings m.frames.size) none).2) := rfl
  rw [parts, Run.bind_ok made, Run.bind_ok h]
  rfl

/-- **Making a root comes to its end**, whatever there is already: the root has the builtins and what the prelude
defines. -/
theorem newRoot_eq (ctx : Context) (m : Machine) :
    ∃ m', newRoot ctx m = some (.ok m.frames.size, m') ∧ m'.Like (withRoot m) := by
  obtain ⟨m', loaded, hm'⟩ := loadPrelude_eq (n := (m.addFrame (rootBindings m.frames.size) none).2)
    Array.getElem?_push_size (ctx.holdFrame m.frames.size)
  exact ⟨m', newRoot_of_loadPrelude loaded, hm'⟩

/-- What a new root binds: its builtins, and what the prelude defines. -/
def newBindings (root : FrameId) (f g h : Value) : Bindings :=
  Bindings.insert "cond" h (Bindings.insert "load-file" g ((rootBindings root).insert "not" f))

/-- What the prelude does not define means what it means without it. -/
theorem find?_newBindings (root : FrameId) (f g h : Value) {name : String} (hn : name ∉ ["not", "load-file", "cond"]) :
    (newBindings root f g h).find? name = (rootBindings root).find? name := by
  simp only [List.mem_cons, List.not_mem_nil, or_false, not_or] at hn
  simp only [newBindings, Bindings.find?_insert, if_neg (Ne.symm hn.1), if_neg (Ne.symm hn.2.1),
    if_neg (Ne.symm hn.2.2)]

theorem leavesForms_newBindings (root : FrameId) (f g h : Value) : (newBindings root f g h).LeavesForms := fun s =>
  (find?_newBindings root f g h (by cases s <;> decide)).trans (leavesForms_rootBindings root s)

/-- What `load-file` needs is among what a new root binds. -/
theorem loadsFiles (root : FrameId) (f g : Value) (id : ClosureId) :
    (newBindings root f (loader root id) g).LoadsFiles root id := by
  have others {name : String} (hn : name ∉ ["not", "load-file", "cond"]) :=
    find?_newBindings root f (loader root id) g hn
  refine ⟨by simp [newBindings, Bindings.find?_insert], (others (by decide)).trans rfl, (others (by decide)).trans rfl,
    (others (by decide)).trans rfl, (others (by decide)).trans rfl, fun h => ?_⟩
  cases (leavesForms_newBindings root f (loader root id) g .sequence).symm.trans h

/-- The frame of a new root. -/
theorem withRoot_root (m : Machine) : ∃ f id, (withRoot m).frames[m.frames.size]? =
    some ⟨newBindings m.frames.size f (loader m.frames.size id)
      (.closure (m.closures + 3) ⟨[], some "xs"⟩ condBody m.frames.size true), none⟩ :=
  ⟨_, _, Machine.define_root (Machine.define_root (Machine.define_root
    (n := (m.addFrame (rootBindings m.frames.size) none).2) Array.getElem?_push_size _) _) _⟩

/-- `load-file` works in a new root. -/
theorem canLoad_withRoot {m m' : Machine} (h : m'.Like (withRoot m)) : m'.CanLoad m.frames.size m.frames.size := by
  obtain ⟨f, id, hroot⟩ := withRoot_root m
  rw [← h.frames_eq] at hroot
  refine ⟨_, _, hroot, loadsFiles m.frames.size f _ id, (Machine.lookup_root hroot _).trans ?_⟩
  exact (loadsFiles m.frames.size f _ id).loadFile

end Interpreter

end MiniLisp

import MiniLisp.Value.Arity

/-!
# Builtin functions

The names and arities of the functions that every root frame starts with. An ordinary builtin needs its arguments
only; a rooted one evaluates forms in the root frame it was made for.
-/

namespace MiniLisp

/-- The ordinary builtins. -/
inductive Builtin
  | add | subtract | multiply | divide
  | equal | greater | greaterEqual | less | lessEqual
  | prStr | str | prn | println | readString | slurp
  | list | vector | vec | cons | concat | nth | first | rest | isEmpty | count
  | hashMap | assoc | dissoc | get | contains | keys | vals
  | atom | deref | reset
  | isNil | isTrue | isFalse | isList | isVector | isSequential | isAtom
  | symbol | isSymbol | keyword | isKeyword | isMap | isFunction | isMacro | isString | isNumber
  | throw
  deriving DecidableEq

namespace Builtin

/-- Every ordinary builtin, in the order in which a root frame gets them. -/
def all : List Builtin :=
  [add, subtract, multiply, divide,
   equal, greater, greaterEqual, less, lessEqual,
   prStr, str, prn, println, readString, slurp,
   list, vector, vec, cons, concat, nth, first, rest, isEmpty, count,
   hashMap, assoc, dissoc, get, contains, keys, vals,
   atom, deref, reset,
   isNil, isTrue, isFalse, isList, isVector, isSequential, isAtom,
   symbol, isSymbol, keyword, isKeyword, isMap, isFunction, isMacro, isString, isNumber,
   throw]

def name : Builtin → String
  | add => "+"
  | subtract => "-"
  | multiply => "*"
  | divide => "/"
  | equal => "="
  | greater => ">"
  | greaterEqual => ">="
  | less => "<"
  | lessEqual => "<="
  | prStr => "pr-str"
  | str => "str"
  | prn => "prn"
  | println => "println"
  | readString => "read-string"
  | slurp => "slurp"
  | list => "list"
  | vector => "vector"
  | vec => "vec"
  | cons => "cons"
  | concat => "concat"
  | nth => "nth"
  | first => "first"
  | rest => "rest"
  | isEmpty => "empty?"
  | count => "count"
  | hashMap => "hash-map"
  | assoc => "assoc"
  | dissoc => "dissoc"
  | get => "get"
  | contains => "contains?"
  | keys => "keys"
  | vals => "vals"
  | atom => "atom"
  | deref => "deref"
  | reset => "reset!"
  | isNil => "nil?"
  | isTrue => "true?"
  | isFalse => "false?"
  | isList => "list?"
  | isVector => "vector?"
  | isSequential => "sequential?"
  | isAtom => "atom?"
  | symbol => "symbol"
  | isSymbol => "symbol?"
  | keyword => "keyword"
  | isKeyword => "keyword?"
  | isMap => "map?"
  | isFunction => "fn?"
  | isMacro => "macro?"
  | isString => "string?"
  | isNumber => "number?"
  | throw => "throw"

def arity : Builtin → Arity
  | add | multiply | prStr | str | prn | println | list | vector | concat | hashMap => .atLeast 0
  | subtract | divide | assoc | dissoc => .atLeast 1
  | equal | greater | greaterEqual | less | lessEqual | cons | nth | get | contains | reset => .exactly 2
  | readString | slurp | vec | first | rest | isEmpty | count | keys | vals | atom | deref | isNil | isTrue | isFalse
  | isList | isVector | isSequential | isAtom | symbol | isSymbol | keyword | isKeyword | isMap | isFunction | isMacro
  | isString | isNumber | throw => .exactly 1

theorem mem_all (b : Builtin) : b ∈ all := by cases b <;> decide

theorem name_injective {b c : Builtin} (h : b.name = c.name) : b = c := by
  have distinct : ∀ b ∈ all, ∀ c ∈ all, b.name = c.name → b = c := by decide +kernel
  exact distinct b (mem_all b) c (mem_all c) h

end Builtin

/-- The rooted builtins. -/
inductive Rooted
  | eval
  | swap
  deriving DecidableEq

namespace Rooted

/-- Every rooted builtin. -/
def all : List Rooted := [eval, swap]

def name : Rooted → String
  | eval => "eval"
  | swap => "swap!"

def arity : Rooted → Arity
  | eval => .exactly 1
  | swap => .atLeast 2

end Rooted

end MiniLisp

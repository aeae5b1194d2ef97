import MiniLisp.Text.Blank

/-!
# Tokens

The words of the language. A text is a sequence of tokens with separators between them.

* `Token.text`: how a token is written.
-/

namespace MiniLisp

/-- The kinds of brackets. -/
inductive Bracket
  | round | square | curly
  deriving DecidableEq

namespace Bracket

def openChar : Bracket → Char
  | round => '('
  | square => '['
  | curly => '{'

def closeChar : Bracket → Char
  | round => ')'
  | square => ']'
  | curly => '}'

end Bracket

/-- The marks that stand before a form for a list of two elements. -/
inductive Shorthand
  | quote | quasiquote | unquote | spliceUnquote | deref
  deriving DecidableEq

namespace Shorthand

def mark : Shorthand → List Char
  | quote => ['\'']
  | quasiquote => ['`']
  | unquote => ['~']
  | spliceUnquote => ['~', '@']
  | deref => ['@']

/-- The symbol at the head of the list that the mark stands for. -/
def name : Shorthand → String
  | quote => "quote"
  | quasiquote => "quasiquote"
  | unquote => "unquote"
  | spliceUnquote => "splice-unquote"
  | deref => "deref"

end Shorthand

/-- A token. -/
inductive Token
  | opening (b : Bracket)
  | closing (b : Bracket)
  | shorthand (s : Shorthand)
  | caret
  /-- A string literal, by what stands between its quotes. -/
  | string (contents : List Char)
  /-- A comment, by what stands between its semicolon and the end of the line. -/
  | comment (contents : List Char)
  /-- A run of characters without a meaning of their own. -/
  | plain (chars : List Char)
  deriving DecidableEq

namespace Token

/-- How a token is written. -/
def text : Token → List Char
  | opening b => [b.openChar]
  | closing b => [b.closeChar]
  | shorthand s => s.mark
  | caret => ['^']
  | string contents => '"' :: contents ++ ['"']
  | comment contents => ';' :: contents
  | plain chars => chars

/-- The token that a character makes on its own. -/
def ofMark? : Char → Option Token
  | '(' => some (opening .round)
  | ')' => some (closing .round)
  | '[' => some (opening .square)
  | ']' => some (closing .square)
  | '{' => some (opening .curly)
  | '}' => some (closing .curly)
  | '\'' => some (shorthand .quote)
  | '`' => some (shorthand .quasiquote)
  | '~' => some (shorthand .unquote)
  | '@' => some (shorthand .deref)
  | '^' => some caret
  | _ => none

end Token

/-- The characters that end a plain run, separators apart. -/
def endsPlain (c : Char) : Bool :=
  c == '(' || c == ')' || c == '[' || c == ']' || c == '{' || c == '}' || c == '\'' || c == '`' || c == '"' || c == ';'

/-- The characters that a plain run goes on with. -/
def isPlain (c : Char) : Bool := !(Text.isSeparator c || endsPlain c)

end MiniLisp

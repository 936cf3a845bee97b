import Stepwise.Source.Span

/-! Tokens of a program text. -/

namespace Stepwise.Source

inductive Keyword
  | define | «return» | «if» | elif | «else» | «while» | pass
  | and | or | not | true | false | none
deriving DecidableEq, Repr

def Keyword.spelling : Keyword → String
  | .define => "def"
  | .return => "return"
  | .if => "if"
  | .elif => "elif"
  | .else => "else"
  | .while => "while"
  | .pass => "pass"
  | .and => "and"
  | .or => "or"
  | .not => "not"
  | .true => "True"
  | .false => "False"
  | .none => "None"

def Keyword.all : List Keyword :=
  [.define, .return, .if, .elif, .else, .while, .pass, .and, .or, .not, .true, .false, .none]

def Keyword.ofWord? (word : String) : Option Keyword :=
  all.find? fun k => k.spelling == word

inductive Mark
  | openParen | closeParen | comma | colon | assign
  | plus | minus | star | slash | doubleSlash | percent
  | equal | unequal | less | lessEqual | greater | greaterEqual
deriving DecidableEq, Repr

def Mark.spelling : Mark → List Char
  | .openParen => ['(']
  | .closeParen => [')']
  | .comma => [',']
  | .colon => [':']
  | .assign => ['=']
  | .plus => ['+']
  | .minus => ['-']
  | .star => ['*']
  | .slash => ['/']
  | .doubleSlash => ['/', '/']
  | .percent => ['%']
  | .equal => ['=', '=']
  | .unequal => ['!', '=']
  | .less => ['<']
  | .lessEqual => ['<', '=']
  | .greater => ['>']
  | .greaterEqual => ['>', '=']

inductive Token.Kind
  | name (word : String)
  | int (n : Int64)
  | float (x : Float)
  | str (s : String)
  | newline
  | indent
  | dedent
  | eof
  | keyword (k : Keyword)
  | mark (m : Mark)
deriving Repr, Inhabited

/-- A token that only shapes lines and blocks. -/
def Token.Kind.isLayout : Token.Kind → Bool
  | .newline | .indent | .dedent => true
  | _ => false

structure Token where
  kind : Token.Kind
  span : Span
deriving Repr, Inhabited

end Stepwise.Source

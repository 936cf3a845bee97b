/-! The literal form of a string. It is written between apostrophes, or between quotation
marks if it holds an apostrophe and no quotation mark. The mark that encloses it, the
backslash, line feed, carriage return and tab are escaped; all else stands for itself. -/

namespace Stepwise.Text

def quoteMark (cs : List Char) : Char :=
  if cs.contains '\'' && !cs.contains '"' then '"' else '\''

def escape (mark c : Char) : List Char :=
  if c = '\\' then ['\\', '\\']
  else if c = '\n' then ['\\', 'n']
  else if c = '\r' then ['\\', 'r']
  else if c = '\t' then ['\\', 't']
  else if c = mark then ['\\', c]
  else [c]

def quoted (cs : List Char) : List Char :=
  let mark := quoteMark cs
  mark :: (cs.flatMap (escape mark) ++ [mark])

def quote (s : String) : String :=
  String.ofList (quoted s.toList)

example : quoted "it's".toList = "\"it's\"".toList := by decide
example : quoted "a\n'\"".toList = "'a\\n\\'\"'".toList := by decide

end Stepwise.Text

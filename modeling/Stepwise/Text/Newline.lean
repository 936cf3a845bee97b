/-! Line ends for a terminal, which needs a carriage return before every line feed. -/

namespace Stepwise.Text

/-- A carriage return and a line feed become one line feed. -/
def collapseLineEnds : List Char → List Char
  | '\r' :: '\n' :: rest => '\n' :: collapseLineEnds rest
  | c :: rest => c :: collapseLineEnds rest
  | [] => []

def expandLineFeed (c : Char) : List Char :=
  if c = '\n' then ['\r', '\n'] else [c]

def normalized (cs : List Char) : List Char :=
  (collapseLineEnds cs).flatMap expandLineFeed

def normalizeLineEnds (text : String) : String :=
  String.ofList (normalized text.toList)

/-- Whether the characters end with a carriage return and a line feed. -/
def endsLine (cs : List Char) : Bool :=
  ['\r', '\n'].isSuffixOf cs

def paintError (text : String) : String :=
  let body := normalized text.toList
  let body := if endsLine body then body else body ++ ['\r', '\n']
  "\x1b[31m" ++ String.ofList body ++ "\x1b[0m"

example : normalized "a\n\r\nb".toList = "a\r\n\r\nb".toList := by decide

end Stepwise.Text

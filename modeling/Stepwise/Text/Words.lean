/-! Dividing a command line into words as a shell does. Blanks divide words; a number sign at the
start of a word begins a comment, which runs to the end of the line. Single quotes keep all,
double quotes all but a backslash before a few characters; elsewhere a backslash keeps the next
character. A backslash and a line feed are nothing. -/

namespace Stepwise.Text

inductive Place
  | between
  | comment
  | bare
  | single
  | double
deriving DecidableEq, Repr

def dividesWords (c : Char) : Bool :=
  c == ' ' || c == '\t' || c == '\n'

def isKeptInQuotes (c : Char) : Bool :=
  c == '$' || c == '\x60' || c == '"' || c == '\\'

/-- The words ahead; `word` holds the characters of the current one, the latest first. A quote
that is not closed and a backslash at the end leave no words. -/
def wordsFrom (word : List Char) : Place → List Char → Option (List String)
  | .between, [] | .comment, [] => some []
  | .bare, [] => some [String.ofList word.reverse]
  | .single, [] | .double, [] => none
  | .comment, c :: cs => wordsFrom [] (if c = '\n' then .between else .comment) cs
  | .single, c :: cs => if c = '\'' then wordsFrom word .bare cs else wordsFrom (c :: word) .single cs
  | .double, '\\' :: c :: cs =>
    wordsFrom (if isKeptInQuotes c then c :: word else if c = '\n' then word else c :: '\\' :: word)
      .double cs
  | .double, c :: cs =>
    if c = '"' then wordsFrom word .bare cs
    else if c = '\\' then none
    else wordsFrom (c :: word) .double cs
  | .bare, '\\' :: c :: cs => wordsFrom (if c = '\n' then word else c :: word) .bare cs
  | .bare, c :: cs =>
    if dividesWords c then (wordsFrom [] .between cs).map (String.ofList word.reverse :: ·)
    else if c = '\'' then wordsFrom word .single cs
    else if c = '"' then wordsFrom word .double cs
    else if c = '\\' then none
    else wordsFrom (c :: word) .bare cs
  | .between, '\\' :: c :: cs => wordsFrom (if c = '\n' then [] else [c]) .bare cs
  | .between, c :: cs =>
    if dividesWords c then wordsFrom [] .between cs
    else if c = '#' then wordsFrom [] .comment cs
    else if c = '\'' then wordsFrom [] .single cs
    else if c = '"' then wordsFrom [] .double cs
    else if c = '\\' then none
    else wordsFrom [c] .bare cs

def words? (line : String) : Option (List String) :=
  wordsFrom [] .between line.toList

example : words? "p 'a b'c # d" = some ["p", "a bc"] := by decide +kernel
example : words? "p 'a" = none := by decide +kernel

end Stepwise.Text

import Stepwise.Debug.Pause

/-! The commands of the pause prompt. The first word of a line is the command; a line that cannot
be divided into words counts as empty. -/

namespace Stepwise

inductive Command
  | resume (d : Decision)
  | quit
  | print (name : Option String)
  | locals
  | globals
  | stack
  | help
  | unknown (word : String)
deriving DecidableEq, Repr

namespace Command

def ofWords (words : List String) : Command :=
  let word := words.headD ""
  match Decision.ofCommand? word with
  | some d => resume d
  | none =>
    match word with
    | "q" | "quit" => quit
    | "p" | "print" => print words[1]?
    | "locals" => locals
    | "globals" => globals
    | "where" | "bt" => stack
    | "h" | "help" => help
    | word => unknown word

def ofLine (words? : String → Option (List String)) (line : String) : Command :=
  ofWords ((words? line).getD [])

end Command

end Stepwise

import Stepwise.Log.Level

/-! Records of the log and their text. -/

namespace Stepwise.Log

inductive Detail
  | named (name value : String)
  | plain (value : String)

structure Record where
  level : Level
  target : String
  message : String
  details : List Detail

namespace Record

def label : Level → String
  | .error => "ERROR"
  | .warn => " WARN"
  | .info => " INFO"
  | .debug => "DEBUG"
  | .trace => "TRACE"

def colour : Level → String
  | .error => "31"
  | .warn => "33"
  | .info => "32"
  | .debug => "34"
  | .trace => "35"

def styled (styles : Bool) (code text : String) : String :=
  if styles then "\x1b[" ++ code ++ "m" ++ text ++ "\x1b[0m" else text

def detailText (styles : Bool) : Detail → String
  | .named name value => " " ++ styled styles "3" name ++ styled styles "2" "=" ++ value
  | .plain value => " " ++ value

def text (styles : Bool) (r : Record) : String :=
  styled styles (colour r.level) (label r.level) ++ " " ++ styled styles "2" r.target ++
    styled styles "2" ":" ++ " " ++ r.message ++
    String.join (r.details.map (detailText styles)) ++ "\n"

end Record

end Stepwise.Log

import Stepwise.Dictionary
import Stepwise.Log.Level

/-! Which records are logged. A record has a target; the threshold for it is that of the longest
registered target with which its own begins. -/

namespace Stepwise.Log

structure Filter where
  fallback : Level
  targets : Dictionary Level

namespace Filter

def longer (a b : String × Level) : String × Level :=
  if a.1.length < b.1.length then b else a

def threshold (f : Filter) (target : String) : Level :=
  let matching := f.targets.entries.filter fun e => e.1.toList.isPrefixOf target.toList
  match matching with
  | [] => f.fallback
  | e :: rest => (rest.foldl longer e).2

def enables (f : Filter) (target : String) (level : Level) : Bool :=
  (f.threshold target).admits level

end Filter

end Stepwise.Log

import Stepwise.Debug.Files
import Stepwise.Debug.Gate
import Stepwise.Debug.Interrupt
import Stepwise.Debug.Report
import Stepwise.Terminal.Console
import Stepwise.Text.Newline

/-! What a run and its controller share: the interrupt cell, the gate, the console, the events
that were sent and not yet received, and the state of the snapshots. -/

namespace Stepwise

structure Job where
  source : String
  name : String
  mode : RunMode

inductive SessionEvent
  | paused (p : Pause)
  | terminated (o : Outcome)

/-- What both sides use. The events are missing if nobody listens. -/
structure Shared where
  cell : Cell
  gate : Gate
  console : Console
  events : Option (List SessionEvent)
  pinnings : Array Pinning

namespace Shared

def new : Shared :=
  ⟨.clear, none, .new, none, #[]⟩

def tell (s : Shared) (e : SessionEvent) : Shared :=
  { s with events := s.events.map (· ++ [e]) }

def write (s : Shared) (text : String) : Shared :=
  { s with console := s.console.write text }

def event? (s : Shared) : Option SessionEvent :=
  s.events.bind List.head?

def hasEvent (s : Shared) : Bool :=
  s.event?.isSome

end Shared

end Stepwise

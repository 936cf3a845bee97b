import Stepwise.Debug.Pause

/-! The gate at which a run waits. Whether an instruction is offered as a pause is decided by
its range: one equal to the range offered last is passed by. The slot of the gate names the
pause that waits; an accepted answer empties it. A suspension goes through the gate in single
steps, between which others may use it. -/

namespace Stepwise

/-- Whether to offer a pause, and the range offered last after that. -/
def offers (last : Option Range) (shouldPause : Bool) (range : Option Range) :
    Bool × Option Range :=
  match range with
  | none => (false, last)
  | some r => if !shouldPause || last = some r then (false, last) else (true, some r)

abbrev Gate := Option Nat

namespace Gate

def install (g : Gate) (seq : Nat) : Except DebugFault Gate :=
  match g with
  | none => .ok (some seq)
  | some pending => .error (.gateBusy pending)

/-- Accepts an answer to a pause, which empties the slot. -/
def resolve (g : Gate) (seq : Nat) : Except DebugFault Gate :=
  match g with
  | none => .error .noPendingPause
  | some pending => if pending = seq then .ok none else .error (.stalePause seq pending)

def leave (g : Gate) (seq : Nat) : Gate :=
  if g = some seq then none else g

end Gate

inductive Resumption
  | resumed (d : Decision)
  | cancelled
deriving DecidableEq, Repr

/-- Where a suspension stands. It takes the slot, tells its pause, looks in turn for mail and at the
interrupt cell, and gives the slot up. An accepted answer lies in its mail until it looks there. -/
inductive Suspension
  | arriving
  | publishing (mail : Option Decision)
  | waiting (mail : Option Decision)
  | checking (mail : Option Decision)
  | leaving (result : Except DebugFault Resumption)
  | left (result : Except DebugFault Resumption)

namespace Suspension

/-- One step of the suspension of pause `seq`. `listening` says whether somebody is there to
be told, `interrupted` whether the cell is set. -/
def step (seq : Nat) (listening interrupted : Bool) (g : Gate) : Suspension → Suspension × Gate
  | arriving =>
    match g.install seq with
    | .ok g => (publishing none, g)
    | .error e => (left (.error e), g)
  | publishing mail => (if listening then waiting mail else leaving (.error .controllerGone), g)
  | waiting (some d) => (leaving (.ok (.resumed d)), g)
  | waiting none => (checking none, g)
  | checking mail => (if interrupted then leaving (.ok .cancelled) else waiting mail, g)
  | leaving result => (left result, g.leave seq)
  | left result => (left result, g)

def deliver (d : Decision) : Suspension → Suspension
  | publishing _ => publishing (some d)
  | waiting _ => waiting (some d)
  | checking _ => checking (some d)
  | s => s

def isIdle (interrupted : Bool) : Suspension → Bool
  | waiting none | checking none => !interrupted
  | _ => false

/-- Moves on until it has left the gate or only waits, at most `fuel` steps. -/
def settle (seq : Nat) (listening interrupted : Bool) :
    Nat → Suspension → Gate → Suspension × Gate
  | 0, s, g => (s, g)
  | fuel + 1, s, g =>
    if s.isIdle interrupted then (s, g)
    else
      let (s, g) := s.step seq listening interrupted g
      settle seq listening interrupted fuel s g

def result? : Suspension → Option (Except DebugFault Resumption)
  | left result => some result
  | _ => none

end Suspension

end Stepwise

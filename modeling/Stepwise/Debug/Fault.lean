/-! Faults of the debugger's own protocol. -/

namespace Stepwise

inductive DebugFault
  | gateBusy (pending : Nat)
  | noPendingPause
  | stalePause (requested pending : Nat)
  | snapshotReleased
  | staleFrame
  | controllerGone
deriving DecidableEq, Repr

def DebugFault.message : DebugFault → String
  | gateBusy pending => "a step gate is already pending (pause #" ++ toString pending ++ ")"
  | noPendingPause => "no pause is pending"
  | stalePause requested pending =>
    "pause #" ++ toString requested ++ " is not the pending pause #" ++ toString pending
  | snapshotReleased => "frame snapshot has been released"
  | staleFrame => "frame snapshot refers to a frame that no longer exists"
  | controllerGone => "controller disconnected"

end Stepwise

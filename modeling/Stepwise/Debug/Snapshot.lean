import Stepwise.Debug.Fault
import Stepwise.Machine.Frame

/-! Snapshots of frames. A snapshot pins its frame until it is released, or until the last
handle on it is dropped if that comes first; what it copied when it was taken can be read
ever after, what it reads from the frame only before its release. -/

namespace Stepwise

/-- A handle on a snapshot; clones bear the same key. -/
structure Snapshot where
  key : Nat
  frame : FrameId
  chunk : Chunk
  lasti : Nat
  line : Nat

structure StackEntry where
  function : String
  file : String
  line : Nat
deriving DecidableEq, Repr

structure Pinning where
  frame : FrameId
  handles : Nat
  released : Bool
deriving DecidableEq, Repr

/-- An arena and the snapshots taken of its frames, by key. -/
structure Gallery where
  arena : Arena
  pinnings : Array Pinning

namespace Gallery

def new (arena : Arena) : Gallery :=
  ⟨arena, #[]⟩

def capture (g : Gallery) (frame : FrameId) (chunk : Chunk) (lasti line : Nat) :
    Except DebugFault (Snapshot × Gallery) :=
  match g.arena.pin frame with
  | some arena =>
    .ok (⟨g.pinnings.size, frame, chunk, lasti, line⟩, ⟨arena, g.pinnings.push ⟨frame, 1, false⟩⟩)
  | none => .error .staleFrame

def isReleased (g : Gallery) (s : Snapshot) : Bool :=
  g.pinnings[s.key]?.all Pinning.released

def release (g : Gallery) (s : Snapshot) : Gallery :=
  if g.isReleased s then g
  else ⟨g.arena.unpin s.frame, g.pinnings.modify s.key fun p => { p with released := true }⟩

def clone (g : Gallery) (s : Snapshot) : Gallery :=
  { g with pinnings := g.pinnings.modify s.key fun p => { p with handles := p.handles + 1 } }

def drop (g : Gallery) (s : Snapshot) : Gallery :=
  let g := { g with
    pinnings := g.pinnings.modify s.key fun p => { p with handles := p.handles - 1 } }
  if g.pinnings[s.key]?.any fun p => p.handles = 0 then g.release s else g

/-- The frame is read only while the snapshot is unreleased and the frame is there. -/
def guarded {α : Type} (g : Gallery) (s : Snapshot) (read : Arena → α) : Except DebugFault α :=
  if g.isReleased s then .error .snapshotReleased
  else if g.arena.isLive s.frame then .ok (read g.arena)
  else .error .staleFrame

def lookup (g : Gallery) (s : Snapshot) (name : String) : Except DebugFault (Option Value) :=
  g.guarded s fun a => a.lookup s.frame name

def locals (g : Gallery) (s : Snapshot) : Except DebugFault Scope :=
  g.guarded s fun a => (a.locals? s.frame).getD .empty

def globals (g : Gallery) (s : Snapshot) : Except DebugFault Scope :=
  g.guarded s Arena.globals

/-- The ancestors of a frame as far as they are there; `fuel` bounds their number. -/
def ancestors (a : Arena) : Nat → Option FrameId → List StackEntry
  | 0, _ => []
  | _, none => []
  | fuel + 1, some id =>
    match a.frame? id with
    | none => []
    | some f => ⟨f.chunk.name, f.chunk.file, f.line⟩ :: ancestors a fuel f.parent

/-- The call stack, innermost first. No frame is its own ancestor, so the number of slots
bounds its length. -/
def stack (g : Gallery) (s : Snapshot) : Except DebugFault (List StackEntry) :=
  g.guarded s fun a =>
    ⟨s.chunk.name, s.chunk.file, s.line⟩ ::
      ancestors a a.slots.size ((a.frame? s.frame).bind Frame.parent)

def instruction (g : Gallery) (s : Snapshot) : Except DebugFault Code.Instr :=
  if g.isReleased s then .error .snapshotReleased
  else (s.chunk.instrAt? s.lasti).elim (.error .staleFrame) .ok

end Gallery

end Stepwise

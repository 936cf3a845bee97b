import Stepwise.Dictionary
import Stepwise.Value.Basic

/-! The frames of a run. A frame lives in a slot; its handle holds the slot's generation,
which changes whenever the slot is freed, so that a handle of a freed frame no longer
resolves. A frame that is released while it is pinned is retired: it stays readable until the
last pin goes. The local names of a module's frame are the global names. -/

namespace Stepwise

abbrev Scope := Dictionary Value

/-- Indices are unbounded here. They stand for 32 bits, so an arena is meant to have at most
`2 ^ 32` slots. -/
structure FrameId where
  index : Nat
  generation : UInt32
deriving DecidableEq, Repr

structure Frame where
  chunk : Chunk
  parent : Option FrameId
  lasti : Nat
  line : Nat
  locals : Scope

def Frame.new (chunk : Chunk) (parent : Option FrameId) (locals : Scope) : Frame :=
  ⟨chunk, parent, 0, chunk.firstLine, locals⟩

/-- The pins are unbounded here. They stand for 32 bits, so a frame is meant to have fewer than
`2 ^ 32` pins. -/
structure Slot where
  generation : UInt32
  frame : Option Frame
  pins : Nat
  retired : Bool

def Slot.holding (frame : Frame) (generation : UInt32) : Slot :=
  ⟨generation, some frame, 0, false⟩

def Slot.freed (s : Slot) : Slot :=
  ⟨s.generation + 1, none, 0, false⟩

/-- The list `free` names the slots without a frame, the one freed last first. -/
structure Arena where
  slots : Array Slot
  free : List Nat
  globals : Scope
  builtins : Scope

namespace Arena

def new (builtins : Scope) : Arena :=
  ⟨#[], [], .empty, builtins⟩

/-- Takes the slot that was freed last, or else a new one, whose index is meant to fit 32 bits. -/
def alloc (a : Arena) (frame : Frame) : FrameId × Arena :=
  match a.free with
  | i :: rest =>
    let generation := (a.slots[i]?.map Slot.generation).getD 0
    (⟨i, generation⟩,
      { a with slots := a.slots.modify i fun s => .holding frame s.generation, free := rest })
  | [] => (⟨a.slots.size, 0⟩, { a with slots := a.slots.push (.holding frame 0) })

/-- The slot of the frame that the handle was made for, while it is there. -/
def slot? (a : Arena) (id : FrameId) : Option Slot :=
  a.slots[id.index]?.filter fun s => s.generation == id.generation && s.frame.isSome

def isLive (a : Arena) (id : FrameId) : Bool :=
  (a.slot? id).isSome

def isRetired (a : Arena) (id : FrameId) : Bool :=
  (a.slot? id).any Slot.retired

def frame? (a : Arena) (id : FrameId) : Option Frame :=
  (a.slot? id).bind Slot.frame

/-- Whether the frame may be written to. -/
def isWritable (a : Arena) (id : FrameId) : Bool :=
  (a.slot? id).any fun s => !s.retired

def modifySlot (a : Arena) (id : FrameId) (f : Slot → Slot) : Arena :=
  { a with slots := a.slots.modify id.index f }

def modifyFrame (a : Arena) (id : FrameId) (f : Frame → Frame) : Arena :=
  if a.isWritable id then a.modifySlot id fun s => { s with frame := s.frame.map f } else a

def freeSlot (a : Arena) (index : Nat) : Arena :=
  { a with slots := a.slots.modify index Slot.freed, free := index :: a.free }

def release (a : Arena) (id : FrameId) : Arena :=
  match a.slot? id with
  | none => a
  | some s =>
    if 0 < s.pins then a.modifySlot id fun s => { s with retired := true }
    else a.freeSlot id.index

def pin (a : Arena) (id : FrameId) : Option Arena :=
  if a.isLive id then some (a.modifySlot id fun s => { s with pins := s.pins + 1 }) else none

def unpin (a : Arena) (id : FrameId) : Arena :=
  match a.slot? id with
  | none => a
  | some s =>
    if s.pins ≤ 1 && s.retired then a.freeSlot id.index
    else a.modifySlot id fun s => { s with pins := s.pins - 1 }

/-- The number of slots that hold a frame. -/
def occupied (a : Arena) : Nat :=
  a.slots.toList.countP fun s => s.frame.isSome

def setPosition (a : Arena) (id : FrameId) (lasti line : Nat) : Arena :=
  a.modifyFrame id fun f => { f with lasti, line }

def locals? (a : Arena) (id : FrameId) : Option Scope :=
  (a.frame? id).map fun f => if f.chunk.isModule then a.globals else f.locals

/-- Looks a name up in the local, then the global, then the built-in names. -/
def lookup (a : Arena) (id : FrameId) (name : String) : Option Value :=
  (((a.locals? id).bind (·.get? name)).or (a.globals.get? name)).or (a.builtins.get? name)

def store (a : Arena) (id : FrameId) (name : String) (v : Value) : Arena :=
  match a.frame? id with
  | none => a
  | some f =>
    if f.chunk.isModule then { a with globals := a.globals.insert name v }
    else a.modifyFrame id fun f => { f with locals := f.locals.insert name v }

end Arena

end Stepwise

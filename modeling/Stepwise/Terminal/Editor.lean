import Stepwise.Terminal.Key

/-! Editing one line. The cursor is kept as its distance from the end of the line. Every key
is echoed with what makes the terminal show the edited line: the text behind the cursor is
written anew where it moved, a blank over what was removed, and the cursor taken back. -/

namespace Stepwise

/-- Here `fromEnd` counts the characters behind the cursor. -/
structure Editor where
  buffer : List Char
  fromEnd : Nat
  fromEnd_le : fromEnd ≤ buffer.length
deriving DecidableEq, Repr

inductive Editor.Outcome
  | pending
  | line (text : String)
  | interrupted
  | endOfInput
deriving DecidableEq, Repr

namespace Editor

def empty : Editor :=
  ⟨[], 0, Nat.le_refl 0⟩

/-- The number of characters before the cursor. -/
def cursor (e : Editor) : Nat :=
  e.buffer.length - e.fromEnd

def before (e : Editor) : List Char :=
  e.buffer.take e.cursor

def behind (e : Editor) : List Char :=
  e.buffer.drop e.cursor

def divided (before behind : List Char) : Editor :=
  ⟨before ++ behind, behind.length, by simp⟩

def moveLeft (n : Nat) : List Char :=
  '\x1b' :: '[' :: (Nat.repr n).toList ++ ['D']

def moveRight (n : Nat) : List Char :=
  '\x1b' :: '[' :: (Nat.repr n).toList ++ ['C']

/-- Writes the text behind the cursor and one blank, and comes back. -/
def closeGap (behind : List Char) : List Char :=
  behind ++ ' ' :: moveLeft (behind.length + 1)

def openGap (c : Char) (behind : List Char) : List Char :=
  c :: behind ++ if behind.isEmpty then [] else moveLeft behind.length

def isPrintable (c : Char) : Bool :=
  ' ' ≤ c && c ≠ '\x7f'

/-- What became of the line, the echo, and the editor after the key. -/
def apply (e : Editor) (key : Key) : Outcome × List Char × Editor :=
  match key with
  | .enter => (.line (String.ofList e.buffer), ['\r', '\n'], empty)
  | .interrupt => (.interrupted, ['^', 'C', '\r', '\n'], empty)
  | .endOfInput => (.endOfInput, ['\r', '\n'], empty)
  | .backspace =>
    if e.cursor = 0 then (.pending, [], e)
    else (.pending, '\x08' :: closeGap e.behind, divided e.before.dropLast e.behind)
  | .delete =>
    match e.behind with
    | [] => (.pending, [], e)
    | _ :: rest => (.pending, closeGap rest, divided e.before rest)
  | .left =>
    if h : e.fromEnd < e.buffer.length then
      (.pending, ['\x1b', '[', 'D'], ⟨e.buffer, e.fromEnd + 1, h⟩)
    else (.pending, [], e)
  | .right =>
    if e.fromEnd = 0 then (.pending, [], e)
    else
      (.pending, ['\x1b', '[', 'C'],
        ⟨e.buffer, e.fromEnd - 1, Nat.le_trans (Nat.sub_le ..) e.fromEnd_le⟩)
  | .home =>
    if e.cursor = 0 then (.pending, [], e)
    else (.pending, moveLeft e.cursor, ⟨e.buffer, e.buffer.length, Nat.le_refl _⟩)
  | .lineEnd =>
    if e.fromEnd = 0 then (.pending, [], e)
    else (.pending, moveRight e.fromEnd, ⟨e.buffer, 0, Nat.zero_le _⟩)
  | .char c =>
    if isPrintable c then (.pending, openGap c e.behind, divided (e.before ++ [c]) e.behind)
    else (.pending, [], e)
  | .control _ | .unknown _ => (.pending, [], e)

end Editor

end Stepwise

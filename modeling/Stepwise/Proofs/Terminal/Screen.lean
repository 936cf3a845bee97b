import Stepwise.Number.Nearest
import Stepwise.Terminal.Editor

/-! What the echo of a line looks like. The terminal has one line without an edge, on which every
printable character takes a cell, and knows of the line what it is sent: it writes over what is
there and moves its cursor by so many cells. What the editor sends to open a gap, to close one and
to move along the line leaves the line on the screen as it then is, and blanks behind it. -/

namespace Stepwise

inductive Screen.Sequence
  | none
  | begun
  | counting (digits : List Char)

structure Screen where
  cells : Nat → Char
  column : Nat
  sequence : Screen.Sequence

namespace Screen

def blank : Screen :=
  ⟨fun _ => ' ', 0, .none⟩

def put (s : Screen) (c : Char) : Screen :=
  { s with cells := fun i => if i = s.column then c else s.cells i, column := s.column + 1 }

def count (digits : List Char) : Nat :=
  if digits.isEmpty then 1 else Number.ofDigits digits

def obey (s : Screen) (digits : List Char) (final : Char) : Screen :=
  if final = 'D' then { s with column := s.column - count digits, sequence := .none }
  else if final = 'C' then { s with column := s.column + count digits, sequence := .none }
  else { s with sequence := .none }

def receive (s : Screen) (c : Char) : Screen :=
  match s.sequence with
  | .none =>
    if c = '\x1b' then { s with sequence := .begun }
    else if c = '\x08' then { s with column := s.column - 1 }
    else if Editor.isPrintable c then s.put c
    else s
  | .begun => { s with sequence := if c = '[' then .counting [] else .none }
  | .counting digits =>
    if c.isDigit then { s with sequence := .counting (digits ++ [c]) } else s.obey digits c

def receiveAll (s : Screen) (cs : List Char) : Screen :=
  cs.foldl receive s

@[simp] theorem receiveAll_nil (s : Screen) : s.receiveAll [] = s := rfl

@[simp] theorem receiveAll_cons (s : Screen) (c : Char) (cs : List Char) :
    s.receiveAll (c :: cs) = (s.receive c).receiveAll cs := rfl

theorem receiveAll_append (s : Screen) (cs ds : List Char) :
    s.receiveAll (cs ++ ds) = (s.receiveAll cs).receiveAll ds :=
  List.foldl_append

def cellsOf (text : List Char) (i : Nat) : Char :=
  (text[i]?).getD ' '

theorem cellsOf_concat_blank (text : List Char) : cellsOf (text ++ [' ']) = cellsOf text := by
  funext i
  unfold cellsOf
  rcases Nat.lt_trichotomy i text.length with hi | rfl | hi
  · rw [List.getElem?_append_left hi]
  · simp
  · rw [List.getElem?_eq_none (Nat.le_of_lt hi), List.getElem?_eq_none]
    simpa using Nat.succ_le_of_lt hi

theorem cellsOf_write (before behind : List Char) (c : Char) :
    cellsOf (before ++ [c] ++ behind.tail) =
      fun i => if i = before.length then c else cellsOf (before ++ behind) i := by
  funext i
  unfold cellsOf
  rcases Nat.lt_trichotomy i before.length with hi | rfl | hi
  · rw [if_neg (Nat.ne_of_lt hi), List.append_assoc, List.getElem?_append_left hi,
      List.getElem?_append_left hi]
  · rw [if_pos rfl, List.append_assoc, List.getElem?_append_right (Nat.le_refl _), Nat.sub_self]
    rfl
  · have hlength : (before ++ [c]).length = before.length + 1 := List.length_append
    rw [if_neg (Nat.ne_of_gt hi), List.getElem?_append_right (by omega),
      List.getElem?_append_right (Nat.le_of_lt hi), List.getElem?_tail, hlength,
      show i - (before.length + 1) + 1 = i - before.length by omega]

def showing (before behind : List Char) : Screen :=
  ⟨cellsOf (before ++ behind), before.length, .none⟩

theorem showing_concat_blank (before behind : List Char) :
    showing before (behind ++ [' ']) = showing before behind := by
  rw [showing, ← List.append_assoc, cellsOf_concat_blank]
  rfl

/-! What a terminal makes of an echo. -/

section Receive

variable (before behind cs : List Char)

theorem receive_printable {c : Char} (hc : Editor.isPrintable c = true) :
    (showing before behind).receive c = showing (before ++ [c]) behind.tail := by
  have hescape : c ≠ '\x1b' := by
    rintro rfl
    cases hc
  have hbackspace : c ≠ '\x08' := by
    rintro rfl
    cases hc
  have hcolumn : (before ++ [c]).length = before.length + 1 := List.length_append
  rw [showing, receive, showing, cellsOf_write, hcolumn]
  simp only [if_neg hescape, if_neg hbackspace, if_pos hc]
  rfl

theorem receiveAll_printable (hcs : ∀ c ∈ cs, Editor.isPrintable c = true) :
    (showing before behind).receiveAll cs = showing (before ++ cs) (behind.drop cs.length) := by
  induction cs generalizing before behind with
  | nil => simp
  | cons c cs ih =>
    obtain ⟨hc, hcs⟩ := List.forall_mem_cons.1 hcs
    rw [receiveAll_cons, receive_printable _ _ hc, ih _ _ hcs]
    simp

theorem receive_backspace (c : Char) :
    (showing (before ++ [c]) behind).receive '\x08' = showing before (c :: behind) := by
  simp [showing, receive]

theorem receiveAll_left (c : Char) :
    (showing (before ++ [c]) behind).receiveAll ['\x1b', '[', 'D'] =
      showing before (c :: behind) := by
  simp [showing, receive, obey, count]

theorem receiveAll_right (c : Char) :
    (showing before (c :: behind)).receiveAll ['\x1b', '[', 'C'] =
      showing (before ++ [c]) behind := by
  simp [showing, receive, obey, count]

theorem receiveAll_digits (s : Screen) {ds : List Char} (hs : s.sequence = .counting ds)
    (hcs : ∀ c ∈ cs, c.isDigit = true) :
    s.receiveAll cs = { s with sequence := .counting (ds ++ cs) } := by
  induction cs generalizing s ds with
  | nil => simp [← hs]
  | cons c cs ih =>
    obtain ⟨hc, hcs⟩ := List.forall_mem_cons.1 hcs
    have hreceive : s.receive c = { s with sequence := .counting (ds ++ [c]) } := by
      simp [receive, hs, hc]
    rw [receiveAll_cons, hreceive, ih _ rfl hcs, List.append_assoc]
    rfl

theorem receiveAll_count (n : Nat) {final : Char} (hfinal : final.isDigit = false) :
    (showing before behind).receiveAll ('\x1b' :: '[' :: (Nat.repr n).toList ++ [final]) =
      (showing before behind).obey (Nat.toDigits 10 n) final := by
  have hdigits : ∀ c ∈ (Nat.repr n).toList, c.isDigit = true := fun c hc =>
    Nat.isDigit_of_mem_toDigits (by decide) (by decide) (Nat.toList_repr ▸ hc)
  have hbegins (cs : List Char) : (showing before behind).receiveAll ('\x1b' :: '[' :: cs) =
      { showing before behind with sequence := .counting [] }.receiveAll cs := rfl
  rw [List.cons_append, List.cons_append, hbegins, receiveAll_append,
    receiveAll_digits _ _ rfl hdigits, Nat.toList_repr, List.nil_append, receiveAll_cons,
    receiveAll_nil]
  exact if_neg (by rw [hfinal]; decide)

theorem count_toDigits (n : Nat) : count (Nat.toDigits 10 n) = n := by
  have hne : (Nat.toDigits 10 n).isEmpty = false := by
    rw [List.isEmpty_eq_false_iff]
    exact Nat.toDigits_ne_nil
  rw [count, hne]
  exact Nat.ofDigitChars_ten_toDigits

theorem receiveAll_moveLeft :
    (showing (before ++ cs) behind).receiveAll (Editor.moveLeft cs.length) =
      showing before (cs ++ behind) := by
  rw [Editor.moveLeft, receiveAll_count _ _ _ (by decide), obey, if_pos rfl, count_toDigits]
  simp [showing]

theorem receiveAll_moveRight :
    (showing before (cs ++ behind)).receiveAll (Editor.moveRight cs.length) =
      showing (before ++ cs) behind := by
  rw [Editor.moveRight, receiveAll_count _ _ _ (by decide), obey, if_neg (by decide), if_pos rfl,
    count_toDigits]
  simp [showing]

/-- The text behind the cursor is written over the character that was removed and itself. -/
theorem receiveAll_closeGap (c : Char) (hbehind : ∀ c ∈ behind, Editor.isPrintable c = true) :
    (showing before (c :: behind)).receiveAll (Editor.closeGap behind) =
      showing before behind := by
  have hprintable : ∀ c ∈ behind ++ [' '], Editor.isPrintable c = true :=
    List.forall_mem_append.2 ⟨hbehind, List.forall_mem_singleton.2 (by decide)⟩
  have hlength : (behind ++ [' ']).length = behind.length + 1 := List.length_append
  rw [Editor.closeGap, List.append_cons, receiveAll_append, receiveAll_printable _ _ _ hprintable,
    ← hlength, receiveAll_moveLeft, hlength, List.drop_eq_nil_of_le (by simp), List.append_nil,
    showing_concat_blank]

theorem receiveAll_openGap {c : Char} (hc : Editor.isPrintable c = true)
    (hbehind : ∀ c ∈ behind, Editor.isPrintable c = true) :
    (showing before behind).receiveAll (Editor.openGap c behind) =
      showing (before ++ [c]) behind := by
  have hback : (showing (before ++ [c] ++ behind) []).receiveAll
      (if behind.isEmpty then [] else Editor.moveLeft behind.length) =
        showing (before ++ [c]) behind := by
    cases behind with
    | nil => simp
    | cons d behind => exact (receiveAll_moveLeft _ _ _).trans (by rw [List.append_nil])
  rw [Editor.openGap, List.cons_append, receiveAll_cons, receive_printable _ _ hc,
    receiveAll_append, receiveAll_printable _ _ _ hbehind, List.drop_eq_nil_of_le (by simp), hback]

end Receive

end Screen

end Stepwise

import Stepwise.Proofs.Terminal.Screen

/-! A line that is edited, parted in two by the cursor: each key does to the two parts what one
expects of it, and the line ends at Enter, Control-C or Control-D. Whatever is typed, the editor
holds that line, and a terminal that is sent the echo shows it. -/

namespace Stepwise

def Key.endsLine : Key → Bool
  | enter | interrupt | endOfInput => true
  | _ => false

/-- The characters on both sides of a cursor, on each side the nearest first. -/
structure Parted where
  before : List Char
  behind : List Char

namespace Parted

def empty : Parted :=
  ⟨[], []⟩

def text (p : Parted) : List Char :=
  p.before.reverse ++ p.behind

def apply : Parted → Key → Parted
  | ⟨bs, rs⟩, .char c => if Editor.isPrintable c then ⟨c :: bs, rs⟩ else ⟨bs, rs⟩
  | ⟨_ :: bs, rs⟩, .backspace => ⟨bs, rs⟩
  | ⟨bs, _ :: rs⟩, .delete => ⟨bs, rs⟩
  | ⟨c :: bs, rs⟩, .left => ⟨bs, c :: rs⟩
  | ⟨bs, c :: rs⟩, .right => ⟨c :: bs, rs⟩
  | ⟨bs, rs⟩, .home => ⟨[], bs.reverse ++ rs⟩
  | ⟨bs, rs⟩, .lineEnd => ⟨rs.reverse ++ bs, []⟩
  | p, _ => p

def outcome (p : Parted) : Key → Editor.Outcome
  | .enter => .line (String.ofList p.text)
  | .interrupt => .interrupted
  | .endOfInput => .endOfInput
  | _ => .pending

structure IsPrintable (p : Parted) : Prop where
  before : ∀ c ∈ p.before, Editor.isPrintable c = true
  behind : ∀ c ∈ p.behind, Editor.isPrintable c = true

def toEditor (p : Parted) : Editor :=
  .divided p.before.reverse p.behind

def toScreen (p : Parted) : Screen :=
  .showing p.before.reverse p.behind

end Parted

namespace Editor

variable (before behind : List Char)

@[simp] theorem cursor_divided : (divided before behind).cursor = before.length := by
  simp [divided, cursor]

@[simp] theorem before_divided : (divided before behind).before = before := by
  rw [Editor.before, cursor_divided]
  simp [divided]

@[simp] theorem behind_divided : (divided before behind).behind = behind := by
  rw [Editor.behind, cursor_divided]
  simp [divided]

end Editor

namespace Parted

variable {p : Parted} {key : Key}

structure Follows (p : Parted) (key : Key) : Prop where
  outcome : (p.toEditor.apply key).1 = .pending
  editor : (p.toEditor.apply key).2.2 = (p.apply key).toEditor
  screen : p.toScreen.receiveAll (p.toEditor.apply key).2.1 = (p.apply key).toScreen

theorem Follows.of_apply (q : Parted) (echo : List Char) (hq : p.apply key = q)
    (happly : p.toEditor.apply key = (.pending, echo, q.toEditor))
    (hscreen : p.toScreen.receiveAll echo = q.toScreen) : p.Follows key := by
  subst hq
  exact ⟨by rw [happly], by rw [happly], by rw [happly, hscreen]⟩

theorem Follows.nothing (hp : p.apply key = p)
    (happly : p.toEditor.apply key = (.pending, [], p.toEditor)) : p.Follows key :=
  .of_apply p [] hp happly rfl

theorem follows (hp : p.IsPrintable) (hkey : key.endsLine = false) : p.Follows key := by
  obtain ⟨bs, rs⟩ := p
  have hbehind : ∀ c ∈ rs, Editor.isPrintable c = true := hp.behind
  cases key with
  | enter | interrupt | endOfInput => cases hkey
  | control c | unknown s => exact .nothing rfl rfl
  | char c =>
    by_cases hc : Editor.isPrintable c = true
    · refine .of_apply ⟨c :: bs, rs⟩ (Editor.openGap c rs) (if_pos hc) ?_ ?_
      · simp [toEditor, Editor.apply, hc]
      · simpa [toScreen] using Screen.receiveAll_openGap bs.reverse rs hc hbehind
    · exact .nothing (if_neg hc) (by simp [Editor.apply, hc])
  | backspace =>
    cases bs with
    | nil => exact .nothing rfl (by simp [toEditor, Editor.apply])
    | cons c bs =>
      refine .of_apply ⟨bs, rs⟩ ('\x08' :: Editor.closeGap rs) rfl ?_ ?_
      · simp [toEditor, Editor.apply]
      · simpa [toScreen, Screen.receive_backspace] using
          Screen.receiveAll_closeGap bs.reverse rs c hbehind
  | delete =>
    cases rs with
    | nil => exact .nothing rfl (by simp [toEditor, Editor.apply])
    | cons c rs =>
      obtain ⟨-, hbehind⟩ := List.forall_mem_cons.1 hbehind
      refine .of_apply ⟨bs, rs⟩ (Editor.closeGap rs) rfl ?_ ?_
      · simp [toEditor, Editor.apply]
      · exact Screen.receiveAll_closeGap bs.reverse rs c hbehind
  | left =>
    cases bs with
    | nil => exact .nothing rfl (by simp [toEditor, Editor.apply, Editor.divided])
    | cons c bs =>
      have hlt : rs.length < bs.length + (rs.length + 1) := by omega
      refine .of_apply ⟨bs, c :: rs⟩ ['\x1b', '[', 'D'] rfl ?_ ?_
      · simp [toEditor, Editor.apply, Editor.divided, hlt]
      · simpa [toScreen] using Screen.receiveAll_left bs.reverse rs c
  | right =>
    cases rs with
    | nil => exact .nothing rfl (by simp [toEditor, Editor.apply, Editor.divided])
    | cons c rs =>
      refine .of_apply ⟨c :: bs, rs⟩ ['\x1b', '[', 'C'] rfl ?_ ?_
      · simp [toEditor, Editor.apply, Editor.divided]
      · simpa [toScreen] using Screen.receiveAll_right bs.reverse rs c
  | home =>
    cases bs with
    | nil => exact .nothing rfl (by simp [toEditor, Editor.apply])
    | cons c bs =>
      refine .of_apply ⟨[], (c :: bs).reverse ++ rs⟩ (Editor.moveLeft (c :: bs).reverse.length)
        rfl ?_ (Screen.receiveAll_moveLeft [] rs (c :: bs).reverse)
      simp only [toEditor, Editor.apply, Editor.cursor_divided]
      simp [Editor.divided]
  | lineEnd =>
    cases rs with
    | nil => exact .nothing rfl (by simp [toEditor, Editor.apply, Editor.divided])
    | cons c rs =>
      refine .of_apply ⟨(c :: rs).reverse ++ bs, []⟩ (Editor.moveRight (c :: rs).length) rfl ?_ ?_
      · simp [toEditor, Editor.apply, Editor.divided]
      · simpa [toScreen] using Screen.receiveAll_moveRight bs.reverse [] (c :: rs)

theorem apply_endsLine (p : Parted) (hkey : key.endsLine = true) :
    (p.toEditor.apply key).1 = p.outcome key ∧ (p.toEditor.apply key).2.2 = .empty ∧
      p.outcome key ≠ .pending := by
  cases key with
  | enter => exact ⟨rfl, rfl, nofun⟩
  | interrupt => exact ⟨rfl, rfl, nofun⟩
  | endOfInput => exact ⟨rfl, rfl, nofun⟩
  | _ => cases hkey

theorem isPrintable_empty : empty.IsPrintable :=
  ⟨List.forall_mem_nil _, List.forall_mem_nil _⟩

theorem IsPrintable.apply (hp : p.IsPrintable) (key : Key) : (p.apply key).IsPrintable := by
  obtain ⟨hbefore, hbehind⟩ := hp
  fun_cases Parted.apply p key with
  | case1 bs rs c hc => exact ⟨List.forall_mem_cons.2 ⟨hc, hbefore⟩, hbehind⟩
  | case2 => exact ⟨hbefore, hbehind⟩
  | case3 c bs rs => exact ⟨(List.forall_mem_cons.1 hbefore).2, hbehind⟩
  | case4 bs c rs => exact ⟨hbefore, (List.forall_mem_cons.1 hbehind).2⟩
  | case5 c bs rs =>
    obtain ⟨hc, hbefore⟩ := List.forall_mem_cons.1 hbefore
    exact ⟨hbefore, List.forall_mem_cons.2 ⟨hc, hbehind⟩⟩
  | case6 bs c rs =>
    obtain ⟨hc, hbehind⟩ := List.forall_mem_cons.1 hbehind
    exact ⟨List.forall_mem_cons.2 ⟨hc, hbefore⟩, hbehind⟩
  | case7 bs rs =>
    exact ⟨List.forall_mem_nil _, List.forall_mem_append.2
      ⟨fun c hc => hbefore c (List.mem_reverse.1 hc), hbehind⟩⟩
  | case8 bs rs =>
    exact ⟨List.forall_mem_append.2 ⟨fun c hc => hbehind c (List.mem_reverse.1 hc), hbefore⟩,
      List.forall_mem_nil _⟩
  | case9 => exact ⟨hbefore, hbehind⟩

end Parted

/-- Keys that were typed into a line before the one that ended it, the editor and the echo after
them, and what became of the line. -/
structure Typing where
  keys : List Key
  editor : Editor
  echo : List Char
  ending : Option (Editor.Outcome × Editor)

/-- Applies keys as long as the line goes on. -/
def Editor.type (e : Editor) : List Key → Typing
  | [] => ⟨[], e, [], none⟩
  | key :: keys =>
    match e.apply key with
    | (.pending, echo, e') =>
      let t := e'.type keys
      ⟨key :: t.keys, t.editor, echo ++ t.echo, t.ending⟩
    | (outcome, _, e') => ⟨[], e, [], some (outcome, e')⟩

namespace Parted

variable {p : Parted} {key : Key} {keys : List Key}

theorem type_of_endsLine (hkey : key.endsLine = true) : p.toEditor.type (key :: keys) =
    ⟨[], p.toEditor, [], some (p.outcome key, .empty)⟩ := by
  obtain ⟨houtcome, heditor, hne⟩ := p.apply_endsLine hkey
  rw [Editor.type]
  split
  · next h =>
    rw [h] at houtcome
    exact absurd houtcome.symm hne
  · next h =>
    rw [h] at houtcome heditor
    rw [← houtcome, ← heditor]

theorem type_of_follows (h : p.Follows key) : p.toEditor.type (key :: keys) =
    let t := (p.apply key).toEditor.type keys
    ⟨key :: t.keys, t.editor, (p.toEditor.apply key).2.1 ++ t.echo, t.ending⟩ := by
  rw [Editor.type]
  split
  · next happly => rw [← h.editor, happly]
  · next hne happly => exact absurd ((congrArg Prod.fst happly).symm.trans h.outcome) hne

/-- The line that all keys make that come before the first to end it is what the editor holds and
the screen shows, and that key makes of it what it says. -/
structure Typed (p : Parted) (keys : List Key) (t : Typing) : Prop where
  typed : t.keys = keys.takeWhile (!·.endsLine)
  editor : t.editor = (t.keys.foldl apply p).toEditor
  screen : p.toScreen.receiveAll t.echo = (t.keys.foldl apply p).toScreen
  ending : t.ending = (keys.dropWhile (!·.endsLine)).head?.map fun key =>
    ((t.keys.foldl apply p).outcome key, Editor.empty)

theorem typed_type (hp : p.IsPrintable) (keys : List Key) :
    p.Typed keys (p.toEditor.type keys) := by
  induction keys generalizing p with
  | nil => exact ⟨rfl, rfl, rfl, rfl⟩
  | cons key keys ih =>
    cases hkey : key.endsLine with
    | true =>
      have hstop : ¬ (!key.endsLine) = true := by rw [hkey]; decide
      rw [type_of_endsLine hkey]
      refine ⟨?_, rfl, rfl, ?_⟩
      · rw [List.takeWhile_cons_of_neg (p := fun k => !Key.endsLine k) hstop]
      · rw [List.dropWhile_cons_of_neg (p := fun k => !Key.endsLine k) hstop]
        rfl
    | false =>
      have hgo : (!key.endsLine) = true := by rw [hkey]; rfl
      have hfollows := follows hp hkey
      obtain ⟨htyped, heditor, hscreen, hending⟩ := ih (hp.apply key)
      rw [type_of_follows hfollows]
      refine ⟨?_, heditor, ?_, ?_⟩
      · rw [List.takeWhile_cons_of_pos (p := fun k => !Key.endsLine k) hgo, ← htyped]
      · rw [Screen.receiveAll_append, hfollows.screen]
        exact hscreen
      · rw [List.dropWhile_cons_of_pos (p := fun k => !Key.endsLine k) hgo]
        exact hending

/-- Whatever is typed into an empty line, up to the first key that ends it the editor holds what
the keys make of the line, with the cursor where they put it, and the screen shows that line and
behind it nothing but blanks, with its cursor at the same place; Enter then gives that line,
Control-C and Control-D give it up, and each of them leaves an empty one. -/
theorem shows_line (keys : List Key) :
    let t := Editor.empty.type keys
    let line := t.keys.foldl apply empty
    let screen := Screen.blank.receiveAll t.echo
    t.keys = keys.takeWhile (!·.endsLine) ∧
      t.editor.buffer = line.text ∧ t.editor.cursor = line.before.length ∧
      (∀ i, screen.cells i = (t.editor.buffer[i]?).getD ' ') ∧
      screen.column = t.editor.cursor ∧
      t.ending = (keys.dropWhile (!·.endsLine)).head?.map fun key =>
        (line.outcome key, Editor.empty) := by
  intro t line screen
  obtain ⟨htyped, heditor, hscreen, hending⟩ := typed_type isPrintable_empty keys
  have heditor : t.editor = line.toEditor := heditor
  have hscreen : screen = line.toScreen := hscreen
  have hbuffer : t.editor.buffer = line.text := by rw [heditor]; rfl
  have hcursor : t.editor.cursor = line.before.length := by
    rw [heditor, toEditor, Editor.cursor_divided, List.length_reverse]
  refine ⟨htyped, hbuffer, hcursor, fun i => ?_, ?_, hending⟩
  · rw [hscreen, hbuffer]
    rfl
  · rw [hscreen, hcursor]
    exact List.length_reverse

end Parted

/-- A character is put into the middle, and another one removed, before the line is entered. -/
example : ((Editor.empty.type [.char 'a', .char 'b', .left, .char 'c', .home, .delete, .enter,
    .char 'd']).ending.map Prod.fst) = some (.line "cb") := by decide

end Stepwise

import Stepwise.Prompt.Drive
import Mathlib.Data.List.Induction

/-! What a prompt makes of the lines that it is given. The words of a line are those of a shell;
where a line has no quotes, backslashes and comments, they are what stands between its blanks. Only
at some first words does the prompt let the program go on. At all others it asks again, with the
program at its pause, unless it is told to quit. -/

namespace Stepwise

namespace Text

/-- The pieces of a line that are not empty. -/
def fields (pieces : List (List Char)) : List String :=
  (pieces.filter fun w => !w.isEmpty).map String.ofList

/-- What stands between the blanks of a line. -/
def pieces (cs : List Char) : List (List Char) :=
  cs.splitOnP dividesWords

/-- There are no quotes and backslashes, and no number sign begins a word. -/
def IsPlain (cs : List Char) : Prop :=
  (∀ c ∈ cs, c ≠ '\'' ∧ c ≠ '"' ∧ c ≠ '\\') ∧ ∀ w ∈ pieces cs, w.head? ≠ some '#'

variable {c : Char} {cs : List Char}

@[simp] theorem fields_nil (ws : List (List Char)) : fields ([] :: ws) = fields ws := rfl

theorem fields_cons {w : List Char} (hw : w ≠ []) (ws : List (List Char)) :
    fields (w :: ws) = String.ofList w :: fields ws := by
  rw [fields, List.filter_cons_of_pos (by simpa using hw), List.map_cons]
  rfl

theorem pieces_blank (hc : dividesWords c = true) : pieces (c :: cs) = [] :: pieces cs := by
  rw [pieces, List.splitOnP_cons_eq_if_modifyHead, if_pos hc]
  rfl

theorem pieces_letter (hc : dividesWords c = false) {w : List Char} {ws : List (List Char)}
    (hw : pieces cs = w :: ws) : pieces (c :: cs) = (c :: w) :: ws := by
  rw [pieces] at hw ⊢
  rw [List.splitOnP_cons_eq_if_modifyHead, if_neg (by simp [hc]), hw]
  rfl

theorem exists_pieces (cs : List Char) : ∃ w ws, pieces cs = w :: ws :=
  List.exists_cons_of_ne_nil (List.splitOnP_ne_nil _ _)

theorem wordsFrom_bare_letter (word : List Char) (hq : c ≠ '\'' ∧ c ≠ '"' ∧ c ≠ '\\')
    (hc : dividesWords c = false) :
    wordsFrom word .bare (c :: cs) = wordsFrom (c :: word) .bare cs := by
  obtain ⟨hsingle, hdouble, hback⟩ := hq
  rw [wordsFrom]
  · simp [hc, hsingle, hdouble, hback]
  · exact fun _ _ he => absurd he hback

theorem wordsFrom_bare_blank (word : List Char) (hc : dividesWords c = true) :
    wordsFrom word .bare (c :: cs) =
      (wordsFrom [] .between cs).map (String.ofList word.reverse :: ·) := by
  rw [wordsFrom]
  · rw [if_pos hc]
  · rintro _ _ rfl
    cases hc

theorem wordsFrom_between_letter (hq : c ≠ '\'' ∧ c ≠ '"' ∧ c ≠ '\\')
    (hc : dividesWords c = false) (hsign : c ≠ '#') :
    wordsFrom [] .between (c :: cs) = wordsFrom [c] .bare cs := by
  obtain ⟨hsingle, hdouble, hback⟩ := hq
  rw [wordsFrom]
  · simp [hc, hsign, hsingle, hdouble, hback]
  · exact fun _ _ he => absurd he hback

theorem wordsFrom_between_blank (hc : dividesWords c = true) :
    wordsFrom [] .between (c :: cs) = wordsFrom [] .between cs := by
  rw [wordsFrom]
  · rw [if_pos hc]
  · rintro _ _ rfl
    cases hc

theorem wordsFrom_plain (cs : List Char) (hq : ∀ c ∈ cs, c ≠ '\'' ∧ c ≠ '"' ∧ c ≠ '\\') :
    ((∀ w ∈ pieces cs, w.head? ≠ some '#') →
        wordsFrom [] .between cs = some (fields (pieces cs))) ∧
      ∀ word w ws, word ≠ [] → pieces cs = w :: ws → (∀ w ∈ ws, w.head? ≠ some '#') →
        wordsFrom word .bare cs = some (String.ofList (word.reverse ++ w) :: fields ws) := by
  induction cs with
  | nil =>
    refine ⟨fun _ => rfl, fun word w ws _ hw _ => ?_⟩
    cases hw
    simp [wordsFrom, fields]
  | cons c cs ih =>
    obtain ⟨hc, hcs⟩ := List.forall_mem_cons.1 hq
    obtain ⟨ihbetween, ihbare⟩ := ih hcs
    obtain ⟨w, ws, hw⟩ := exists_pieces cs
    cases hblank : dividesWords c with
    | true =>
      rw [pieces_blank hblank]
      refine ⟨fun hsign => ?_, fun word w' ws' _ hw' hsign => ?_⟩
      · rw [wordsFrom_between_blank hblank, fields_nil]
        exact ihbetween fun w hw => hsign w (List.mem_cons_of_mem _ hw)
      · cases hw'
        rw [wordsFrom_bare_blank word hblank, ihbetween hsign, List.append_nil]
        rfl
    | false =>
      rw [pieces_letter hblank hw]
      refine ⟨fun hsign => ?_, fun word w' ws' _ hw' hsign => ?_⟩
      · obtain ⟨hhead, htail⟩ := List.forall_mem_cons.1 hsign
        rw [wordsFrom_between_letter hc hblank fun he => hhead (by rw [he]; rfl),
          ihbare [c] w ws (List.cons_ne_nil _ _) hw htail, fields_cons (List.cons_ne_nil _ _)]
        rfl
      · cases hw'
        rw [wordsFrom_bare_letter word hc hblank,
          ihbare (c :: word) w ws (List.cons_ne_nil _ _) hw hsign, List.reverse_cons,
          List.append_assoc]
        rfl

/-- What a prompt relies on: the words of a plain line are what stands between its blanks. -/
def DividesPlain (words? : String → Option (List String)) : Prop :=
  ∀ line, IsPlain line.toList → words? line = some (fields (pieces line.toList))

theorem dividesPlain_words? : DividesPlain words? :=
  fun line h => (wordsFrom_plain line.toList h.1).1 h.2

theorem fields_pieces_eq_nil_iff (cs : List Char) :
    fields (pieces cs) = [] ↔ ∀ c ∈ cs, dividesWords c = true := by
  induction cs with
  | nil => simp [pieces, fields]
  | cons c cs ih =>
    rw [List.forall_mem_cons]
    cases hblank : dividesWords c with
    | true => rw [pieces_blank hblank, fields_nil, ih, eq_self_iff_true, true_and]
    | false =>
      obtain ⟨w, ws, hw⟩ := exists_pieces cs
      rw [pieces_letter hblank hw, fields_cons (List.cons_ne_nil _ _)]
      simp

theorem empty_not_mem_fields (ws : List (List Char)) : "" ∉ fields ws := by
  intro h
  obtain ⟨w, hw, he⟩ := List.mem_map.1 h
  have hempty : w = [] := String.ofList_eq_empty_iff.1 he
  simp [hempty] at hw

end Text

namespace Command

def stepping : List String := ["", "n", "next", "s", "step", "stepIn"]

def stopping : List String := ["c", "continue"]

def quitting : List String := ["q", "quit"]

/-- The decision that a word stands for. -/
inductive Resumes (word : String) : Decision → Prop
  | steps (hw : word ∈ stepping) : Resumes word .continueStepping
  | stops (hw : word ∈ stopping) : Resumes word .stopDebugging

def Stays : Command → Prop
  | resume _ | quit => False
  | _ => True

theorem ofCommand?_eq_some_iff {word : String} {d : Decision} :
    Decision.ofCommand? word = some d ↔ Resumes word d := by
  simp only [Decision.ofCommand?, List.contains_iff_mem]
  constructor
  · intro h
    split at h
    · next hw =>
      cases h
      exact .steps hw
    · split at h
      · next hw =>
        cases h
        exact .stops hw
      · cases h
  · rintro (hw | hw)
    · exact if_pos hw
    · refine (if_neg ?_).trans (if_pos hw)
      simp only [stopping, List.mem_cons, List.not_mem_nil, or_false] at hw
      rcases hw with rfl | rfl <;> decide

theorem ofWords_cases (ws : List String) :
    (∃ d, ofWords ws = resume d ∧ Resumes (ws.headD "") d) ∨
      (ofWords ws = quit ∧ ws.headD "" ∈ quitting) ∨ (ofWords ws).Stays := by
  unfold ofWords
  dsimp only
  split
  · next d hd => exact .inl ⟨d, rfl, ofCommand?_eq_some_iff.1 hd⟩
  · refine .inr ?_
    split
    · next hw => exact .inl ⟨rfl, by rw [hw]; decide⟩
    · next hw => exact .inl ⟨rfl, by rw [hw]; decide⟩
    all_goals exact .inr trivial

theorem ofLine_of_words? {words? : String → Option (List String)} {text : String}
    {ws : List String} (hw : words? text = some ws) : ofLine words? text = ofWords ws := by
  rw [ofLine, hw, Option.getD_some]

end Command

namespace Drive

/-- What a prompt comes to hear: a line, the end of the input, that no line has come for a while, so
that it looks at the interrupt cell, or an interrupt from elsewhere. -/
inductive Heard
  | line (text : String)
  | ended
  | nothing
  | signalled

def hear (d : Drive) : Heard → Drive
  | .line text => d.give (some text)
  | .ended => d.give none
  | .nothing => d.notice
  | .signalled => { d with session := d.session.interrupt }

def hears (d : Drive) (hs : List Heard) : Drive :=
  hs.foldl hear d

/-- The prompt of the pause still waits for a command, and nothing has happened to the session
but that its cell may have been set. -/
structure Asks (d : Drive) (p : Pause) (d' : Drive) : Prop where
  phase : d'.phase = .prompting p
  closed : d'.closed = d.closed
  words : d'.words? = d.words?
  session : d'.session = d.session ∨ d'.session = d.session.interrupt

/-- The run is interrupted and waited for. -/
structure Quits (d d' : Drive) : Prop where
  phase : d'.phase = .running
  session : d'.session = d.session.interrupt

/-- How a prompt ends by what it hears. What it does with a line that cannot be divided into words
is left open. -/
inductive Ends (d : Drive) : Heard → Drive → Prop
  | resumes {text : String} {ws : List String} {decision : Decision}
    (hw : d.words? text = some ws) (hd : Command.Resumes (ws.headD "") decision) :
    Ends d (.line text) (d.resume decision)
  | quits {text : String} {ws : List String} (hw : d.words? text = some ws)
    (hq : ws.headD "" ∈ Command.quitting ∨ d.closed = true) {d' : Drive} (h : d.Quits d') :
    Ends d (.line text) d'
  | ended {d' : Drive} (h : d.Quits d') : Ends d .ended d'
  | interrupted (hi : d.session.shared.cell.isSet = true) {d' : Drive} (h : d.Quits d') :
    Ends d .nothing d'
  | undivided {text : String} (hw : d.words? text = none) (d' : Drive) : Ends d (.line text) d'

variable {d d' d'' : Drive} {p : Pause} {text : String}

theorem Asks.refl (hp : d.phase = .prompting p) : d.Asks p d :=
  ⟨hp, rfl, rfl, .inl rfl⟩

theorem Asks.trans (h : d.Asks p d') (h' : d'.Asks p d'') : d.Asks p d'' where
  phase := h'.phase
  closed := h'.closed.trans h.closed
  words := h'.words.trans h.words
  session := by
    obtain hs | hs := h.session <;> obtain hs' | hs' := h'.session <;> rw [hs', hs]
    · exact .inl rfl
    · exact .inr rfl
    · exact .inr rfl
    · exact .inr rfl

theorem give_of_resumes (hp : d.phase = .prompting p) {ws : List String} {decision : Decision}
    (hw : d.words? text = some ws) (hd : Command.Resumes (ws.headD "") decision) :
    d.give (some text) = d.resume decision := by
  have hcommand : Command.ofLine d.words? text = .resume decision := by
    rw [Command.ofLine_of_words? hw, Command.ofWords, Command.ofCommand?_eq_some_iff.2 hd]
  simp only [give, hp, answer, hcommand]

theorem ask_say (d : Drive) (p : Pause) (text : String) :
    d.closed = false ∧ d.Asks p ((d.say text).ask p) ∨
      d.closed = true ∧ d.Quits ((d.say text).ask p) := by
  cases hc : d.closed with
  | false =>
    refine .inl ⟨rfl, ?_⟩
    simp only [ask, say, hc]
    exact ⟨rfl, hc.symm, rfl, .inl rfl⟩
  | true =>
    refine .inr ⟨rfl, ?_⟩
    simp only [ask, say, hc]
    exact ⟨rfl, rfl⟩

theorem give_of_stays (hp : d.phase = .prompting p) (hc : (Command.ofLine d.words? text).Stays) :
    d.give (some text) =
      (d.say (Dialogue.answer d.session.gallery p.snapshot (Command.ofLine d.words? text))).ask p := by
  simp only [give, hp, answer]
  split
  · next he => exact (he ▸ hc : (Command.resume _).Stays).elim
  · next he => exact (he ▸ hc : Command.quit.Stays).elim
  · rfl

theorem hear_cases (hp : d.phase = .prompting p) (x : Heard) :
    d.Asks p (d.hear x) ∨ d.Ends x (d.hear x) := by
  cases x with
  | line text =>
    cases hw : d.words? text with
    | none => exact .inr (.undivided hw _)
    | some ws =>
      have hcommand := Command.ofLine_of_words? hw
      obtain ⟨decision, -, hd⟩ | ⟨hquit, hq⟩ | hstays := Command.ofWords_cases ws
      · rw [hear, give_of_resumes hp hw hd]
        exact .inr (.resumes hw hd)
      · refine .inr (.quits hw (.inl hq) ?_)
        simp only [hear, give, hp, answer, hcommand, hquit]
        exact ⟨rfl, rfl⟩
      · rw [hear, give_of_stays hp (hcommand ▸ hstays)]
        obtain ⟨-, hasks⟩ | ⟨hc, hquits⟩ := d.ask_say p _
        · exact .inl hasks
        · exact .inr (.quits hw (.inr hc) hquits)
  | ended =>
    refine .inr (.ended ?_)
    simp only [hear, give, hp, answer]
    exact ⟨rfl, rfl⟩
  | nothing =>
    cases hi : d.session.shared.cell.isSet with
    | false =>
      refine .inl ?_
      simp only [hear, notice, hp, hi]
      exact .refl hp
    | true =>
      refine .inr (.interrupted hi ?_)
      simp only [hear, notice, hp, hi]
      exact ⟨rfl, rfl⟩
  | signalled => exact .inl ⟨hp, rfl, rfl, .inr rfl⟩

theorem hears_cases (hp : d.phase = .prompting p) (hs : List Heard) :
    d.Asks p (d.hears hs) ∨ ∃ before x after, hs = before ++ x :: after ∧
      d.Asks p (d.hears before) ∧ (d.hears before).Ends x (d.hears (before ++ [x])) := by
  have hears_concat (hs : List Heard) (x : Heard) :
      d.hears (hs ++ [x]) = (d.hears hs).hear x := List.foldl_append
  induction hs using List.reverseRecOn with
  | nil => exact .inl (.refl hp)
  | append_singleton hs x ih =>
    obtain hasks | ⟨before, y, after, rfl, hasks, hends⟩ := ih
    · obtain hagain | hends := hear_cases hasks.phase x
      · exact .inl (hears_concat hs x ▸ hasks.trans hagain)
      · exact .inr ⟨hs, x, [], rfl, hasks, hears_concat hs x ▸ hends⟩
    · exact .inr ⟨before, y, after ++ [x], by simp, hasks, hends⟩

/-- Whatever a prompt hears, it asks on until something ends it: a line whose first word resumes,
or which has no words; a word that quits; the end of the input; an interrupt. The program then goes
on as that word says, or is interrupted, and until then it stays where it is. Lines that cannot be
divided into words are left open. Where plain lines divide at their blanks, the words of a line
without quotes, backslashes and comments are what stands between its blanks. -/
theorem resumes_by_command (d : Drive) (hwords : Text.DividesPlain d.words?) (p : Pause)
    (hp : d.phase = .prompting p) (hs : List Heard) :
    (d.Asks p (d.hears hs) ∨ ∃ before x after, hs = before ++ x :: after ∧
        d.Asks p (d.hears before) ∧ (d.hears before).Ends x (d.hears (before ++ [x]))) ∧
      (∀ text ws decision, d.words? text = some ws → Command.Resumes (ws.headD "") decision →
        d.hear (.line text) = d.resume decision) ∧
      ∀ text : String, Text.IsPlain text.toList →
        let ws := Text.fields (Text.pieces text.toList)
        d.words? text = some ws ∧ "" ∉ ws ∧
          (ws = [] ↔ ∀ c ∈ text.toList, Text.dividesWords c = true) :=
  ⟨hears_cases hp hs, fun _ _ _ hw hd => give_of_resumes hp hw hd, fun text hplain =>
    ⟨hwords text hplain, Text.empty_not_mem_fields _, Text.fields_pieces_eq_nil_iff _⟩⟩

theorem words?_ask (d : Drive) (p : Pause) : (d.ask p).words? = d.words? := by
  simp only [ask]
  split <;> rfl

theorem words?_poll (d : Drive) : d.poll.words? = d.words? := by
  unfold poll
  split
  · rfl
  · rfl
  · rw [words?_ask]
    rfl
  · rfl

theorem words?_step (d : Drive) (patience : Nat) : (d.step patience).words? = d.words? := by
  unfold step
  split
  · dsimp only
    split
    · rfl
    · rw [words?_poll]
  · rfl

def sums : Job :=
  ⟨"x = 1\ny = 2\n", "<sums>", .debug⟩

def opened : Option Drive :=
  (Drive.start (.new 10 Hint.standard) sums).toOption.map (·.step 100)

def pause? (d : Drive) : Option Pause :=
  match d.phase with
  | .prompting p => some p
  | _ => none

theorem phase_of_pause? (h : d.pause? = some p) : d.phase = .prompting p := by
  unfold pause? at h
  split at h
  · next hp =>
    cases h
    exact hp
  · cases h

def isRunning (d : Drive) : Bool :=
  match d.phase with
  | .running => true
  | _ => false

theorem phase_of_isRunning (h : d.isRunning = true) : d.phase = .running := by
  unfold isRunning at h
  split at h
  · assumption
  · cases h

theorem words?_of_start {s : Session} {job : Job} (h : Drive.start s job = .ok d) :
    d.words? = Text.words? := by
  unfold Drive.start at h
  cases hs : s.start job with
  | error e =>
    rw [hs] at h
    cases h
  | ok s =>
    rw [hs] at h
    cases h
    rfl

theorem exists_opened :
    ∃ d p, opened = some d ∧ d.phase = .prompting p ∧ d.words? = Text.words? := by
  have hopened : (opened.bind pause?).isSome = true := by decide +kernel
  obtain ⟨p, hp⟩ := Option.isSome_iff_exists.1 hopened
  obtain ⟨d, hd, hp⟩ := Option.bind_eq_some_iff.1 hp
  refine ⟨d, p, hd, phase_of_pause? hp, ?_⟩
  cases hstart : Drive.start (.new 10 Hint.standard) sums with
  | error e =>
    rw [opened, hstart] at hd
    cases hd
  | ok d =>
    rw [opened, hstart] at hd
    cases hd
    rw [words?_step, words?_of_start hstart]

theorem resumes_by_command_opened :
    ∃ d p, opened = some d ∧ d.phase = .prompting p ∧ Text.DividesPlain d.words? ∧
      d.hear (.line "c") = d.resume .stopDebugging := by
  obtain ⟨d, p, hd, hp, hwords⟩ := exists_opened
  have hdivides : Text.DividesPlain d.words? := hwords ▸ Text.dividesPlain_words?
  have hword : d.words? "c" = some ["c"] := by
    rw [hwords]
    decide +kernel
  exact ⟨d, p, hd, hp, hdivides,
    (resumes_by_command d hdivides p hp []).2.1 "c" ["c"] .stopDebugging hword
      (.stops (by decide))⟩

/-- Quotes are taken off a word before it is looked at, a comment leaves no words, and a line that
cannot be divided is taken for one without words: so the prompt resumes on lines that begin with
other words. -/
theorem resumes_by_other_words :
    ∃ d p, opened = some d ∧ d.phase = .prompting p ∧
      ∀ x ∈ [("\"n\"", "\"n\""), ("# where", "#"), ("p \"x", "p")],
        d.hear (.line x.1) = d.resume .continueStepping ∧
          (d.hear (.line x.1)).phase = .running ∧
          (Text.fields (Text.pieces x.1.toList)).head? = some x.2 ∧
          x.2 ∉ Command.stepping ∧ x.2 ∉ Command.stopping := by
  have hruns : (opened.any fun d => (d.resume .continueStepping).isRunning) = true := by
    decide +kernel
  obtain ⟨d, p, hd, hp, hdivides⟩ := exists_opened
  rw [hd, Option.any_some] at hruns
  have hcommands : ∀ x ∈ [("\"n\"", "\"n\""), ("# where", "#"), ("p \"x", "p")],
      Command.ofLine Text.words? x.1 = .resume .continueStepping ∧
        (Text.fields (Text.pieces x.1.toList)).head? = some x.2 := by
    decide +kernel
  have hwords : ∀ x ∈ [("\"n\"", "\"n\""), ("# where", "#"), ("p \"x", "p")],
      x.2 ∉ Command.stepping ∧ x.2 ∉ Command.stopping := by
    decide
  refine ⟨d, p, hd, hp, fun x hx => ?_⟩
  obtain ⟨hcommand, hword⟩ := hcommands x hx
  have hresume : d.hear (.line x.1) = d.resume .continueStepping := by
    simp only [hear, give, hp, answer, hdivides, hcommand]
  exact ⟨hresume, hresume ▸ phase_of_isRunning hruns, hword, hwords x hx⟩

end Drive

end Stepwise

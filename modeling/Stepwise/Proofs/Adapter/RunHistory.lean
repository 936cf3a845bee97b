import Stepwise.Proofs.Adapter.Moves
import Stepwise.Proofs.Session.Pauses

/-! What happens to a run, in its order: all that is written to its terminal, that it tells its
controller, and that the server sends. -/

namespace Stepwise

def Display.text? : Display → Option String
  | text s => some s
  | cursor _ => none

namespace Server

def displays (s : Server) : List Display :=
  (s.session.map fun session => session.shared.console.output.toList).getD []

def texts (s : Server) : List String :=
  s.displays.filterMap Display.text?

def forwardedTexts (s : Server) : List String :=
  (s.displays.take s.forwarded).filterMap Display.text?

def queue (s : Server) : List SessionEvent :=
  (s.session.bind fun session => session.shared.events).getD []

def outputOf (text : String) : Option Json :=
  some (outputBody text)

def stoppedOf (p : Pause) : Option Json :=
  some (stoppedBody p)

variable {s : Server} {S : Session}

theorem displays_eq (h : s.session = some S) :
    s.displays = S.shared.console.output.toList := by
  rw [displays, h]
  rfl

theorem queue_eq (h : s.session = some S) : s.queue = S.shared.events.getD [] := by
  rw [queue, h]
  rfl

end Server

def Message.announced? (name : String) (m : Message) : Option (Option Json) :=
  match m.content with
  | .event n body => if n = name then some body else none
  | _ => none

/-- What is noted of a server and its runs: a text for the terminal of the run, an event that the
run told its controller, a message that the server sent. -/
inductive Happening
  | wrote (text : String)
  | told (e : SessionEvent)
  | sent (m : Message)

abbrev RunHistory := List Happening

namespace Happening

def wrote? : Happening → Option String
  | wrote text => some text
  | _ => none

def told? : Happening → Option SessionEvent
  | told e => some e
  | _ => none

def sent? : Happening → Option Message
  | sent m => some m
  | _ => none

/-- Whether this is a message that does not tell of a run. -/
def isAside : Happening → Bool
  | sent m => m.isAside
  | _ => false

def news (ts : List String) (es : List SessionEvent) (ms : List Message) : RunHistory :=
  ts.map wrote ++ es.map told ++ ms.map sent

def between (s t : Server) : RunHistory :=
  news (t.texts.drop s.texts.length) (t.queue.drop s.queue.length)
    (t.sent.toList.drop s.sent.size)

end Happening

namespace RunHistory

open Happening

def texts (l : RunHistory) : List String :=
  l.filterMap wrote?

def events (l : RunHistory) : List SessionEvent :=
  l.filterMap told?

def pauses (l : RunHistory) : List Pause :=
  l.events.filterMap SessionEvent.pause?

def messages (l : RunHistory) : List Message :=
  l.filterMap sent?

def announced (name : String) (l : RunHistory) : List (Option Json) :=
  l.messages.filterMap (Message.announced? name)

/-- A run whose end the client does not know yet: it got some of what was written, in its order,
and some of the pauses, in theirs, which are numbered from one. -/
structure Underway (l : RunHistory) : Prop where
  output : l.announced "output" <+: l.texts.map Server.outputOf
  stopped : l.announced "stopped" <+: l.pauses.map Server.stoppedOf
  numbered : l.pauses.map Pause.seq = List.range' 1 l.pauses.length
  terminated : l.announced "terminated" = []
  exited : l.announced "exited" = []

/-- A run whose end the client knows: before that it got all that was written and all pauses, and
after that nothing of the run happens. -/
inductive Concluded (l : RunHistory) : Prop
  | intro {before after : RunHistory} {n : Nat} {o : Outcome}
    (h : l = before ++ sent ⟨n, "event", .event "terminated" (some o.toJson)⟩ ::
      sent ⟨n + 1, "event", .event "exited" (some (.obj [("exitCode", Json.nat o.exitCode)]))⟩ ::
        after)
    (output : before.announced "output" = before.texts.map Server.outputOf)
    (told : before.events = before.pauses.map .paused ++ [.terminated o])
    (stopped : before.announced "stopped" = before.pauses.map Server.stoppedOf)
    (numbered : before.pauses.map Pause.seq = List.range' 1 before.pauses.length)
    (terminated : before.announced "terminated" = [])
    (exited : before.announced "exited" = [])
    (rest : ∀ x ∈ after, x.isAside = true)

/-- The client knows all that has happened to the run. -/
structure Known (l : RunHistory) : Prop where
  output : l.announced "output" = l.texts.map Server.outputOf
  stopped : l.announced "stopped" = l.pauses.map Server.stoppedOf
  ended : ∀ o, .terminated o ∈ l.events → l.Concluded

section News

variable (l : RunHistory) (ts : List String) (es : List SessionEvent) (ms : List Message)

theorem filterMap_news {α : Type} (f : Happening → Option α) : (news ts es ms).filterMap f =
    ts.filterMap (f ∘ wrote) ++ es.filterMap (f ∘ told) ++ ms.filterMap (f ∘ sent) := by
  simp only [news, List.filterMap_append, List.filterMap_map]

@[simp] theorem texts_append_news : texts (l ++ news ts es ms) = l.texts ++ ts := by
  simp [texts, filterMap_news, Function.comp_def, wrote?]

@[simp] theorem events_append_news : events (l ++ news ts es ms) = l.events ++ es := by
  simp [events, filterMap_news, Function.comp_def, told?]

@[simp] theorem messages_append_news : messages (l ++ news ts es ms) = l.messages ++ ms := by
  simp [messages, filterMap_news, Function.comp_def, sent?]

@[simp] theorem announced_append_news (name : String) : announced name (l ++ news ts es ms) =
    l.announced name ++ ms.filterMap (Message.announced? name) := by
  rw [announced, messages_append_news, List.filterMap_append]
  rfl

variable {ms}

theorem announced_asides (h : ∀ m ∈ ms, m.isAside = true) {name : String}
    (hname : name ∈ Message.runEvents) : ms.filterMap (Message.announced? name) = [] := by
  refine List.filterMap_eq_nil_iff.2 fun m hm => ?_
  obtain ⟨seq, type, content⟩ := m
  cases content with
  | response | request => rfl
  | event n body =>
    refine if_neg ?_
    rintro rfl
    have hn : (!Message.runEvents.contains n) = true := h _ hm
    rw [List.contains_iff_mem.2 hname] at hn
    cases hn

theorem announced_append_asides (h : ∀ m ∈ ms, m.isAside = true) {name : String}
    (hname : name ∈ Message.runEvents) :
    announced name (l ++ news ts es ms) = l.announced name := by
  rw [announced_append_news, announced_asides h hname, List.append_nil]

end News

theorem Concluded.asides {l : RunHistory} {ms : List Message} (h : l.Concluded)
    (hms : ∀ m ∈ ms, m.isAside = true) : Concluded (l ++ news [] [] ms) := by
  obtain ⟨rfl, houtput, htold, hstopped, hnumbered, hterminated, hexited, hrest⟩ := h
  refine .intro (by rw [List.append_assoc]; rfl) houtput htold hstopped hnumbered hterminated
    hexited fun x hx => ?_
  rcases List.mem_append.1 hx with hx | hx
  · exact hrest x hx
  · obtain ⟨m, hm, rfl⟩ := List.mem_map.1 hx
    exact hms m hm

theorem eq_news_of_asides {l : RunHistory} (h : ∀ x ∈ l, x.isAside = true) :
    ∃ ms, l = news [] [] ms ∧ ∀ m ∈ ms, m.isAside = true := by
  induction l with
  | nil => exact ⟨[], rfl, List.forall_mem_nil _⟩
  | cons x l ih =>
    obtain ⟨hx, hl⟩ := List.forall_mem_cons.1 h
    obtain ⟨ms, rfl, hms⟩ := ih hl
    cases x with
    | wrote | told => cases hx
    | sent m => exact ⟨m :: ms, rfl, List.forall_mem_cons.2 ⟨hx, hms⟩⟩

theorem Concluded.known {l : RunHistory} (h : l.Concluded) : l.Known ∧
    ∃ o, l.events = l.pauses.map .paused ++ [.terminated o] := by
  have hconcluded := h
  obtain @⟨before, after, n, o, rfl, houtput, htold, hstopped, -, -, -, hrest⟩ := h
  obtain ⟨ms, rfl, hms⟩ := eq_news_of_asides hrest
  have hnews (t e : Message) : before ++ sent t :: sent e :: news [] [] ms =
      before ++ news [] [] (t :: e :: ms) := rfl
  have hasides {name : String} (hname : name ∈ Message.runEvents) := announced_asides hms hname
  rw [hnews] at hconcluded ⊢
  refine ⟨⟨?_, ?_, fun _ _ => hconcluded⟩, o, ?_⟩
  · rw [announced_append_news, texts_append_news, List.append_nil, ← houtput]
    simpa [Message.announced?] using hasides (by simp [Message.runEvents])
  · rw [announced_append_news, pauses, events_append_news, List.append_nil]
    refine Eq.trans ?_ hstopped
    simpa [Message.announced?] using hasides (by simp [Message.runEvents])
  · rw [pauses, events_append_news, List.append_nil]
    exact htold

end RunHistory

end Stepwise

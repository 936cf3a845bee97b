import Stepwise.Adapter.Server

/-! What a server sends. Whatever its client asks and however the run moves before, between and
during its calls, its messages bear the numbers from one on, and every request is answered by
the call that takes it, once. -/

namespace Stepwise

namespace Message

def asked? (m : Message) : Option (Nat × String) :=
  match m.content with
  | .request command _ => some (m.seq, command)
  | _ => none

theorem seq_of_asked? {m : Message} {seq : Nat} {command : String}
    (h : m.asked? = some (seq, command)) : m.seq = seq := by
  unfold asked? at h
  split at h <;> cases h
  rfl

/-- The number and the command of the request that a response answers. -/
def answered? (m : Message) : Option (Nat × String) :=
  match m.content with
  | .response answered _ command _ _ => some (answered, command)
  | _ => none

end Message

namespace Server

variable {s t u : Server} {ms ms' : List Message} {seq : Nat} {command : String}

/-- These messages were sent between two moments, with the numbers that were next. -/
structure Sends (s t : Server) (ms : List Message) : Prop where
  sent : t.sent.toList = s.sent.toList ++ ms
  numbers : ms.map Message.seq = List.range' (s.sent.size + 1) ms.length

theorem Sends.none (h : t.sent = s.sent) : s.Sends t [] :=
  ⟨by simp [h], rfl⟩

theorem Sends.size (h : s.Sends t ms) : t.sent.size = s.sent.size + ms.length := by
  simpa using congrArg List.length h.sent

theorem Sends.append (h : s.Sends t ms) (h' : t.Sends u ms') : s.Sends u (ms ++ ms') where
  sent := by rw [h'.sent, h.sent, List.append_assoc]
  numbers := by
    have hn := h'.numbers
    rw [h.size] at hn
    rw [List.map_append, h.numbers, hn, List.length_append, Nat.add_right_comm,
      List.range'_append_1]

theorem sends_send (s : Server) (type : String) (content : Message.Content) :
    s.Sends (s.send type content) [⟨s.sent.size + 1, type, content⟩] :=
  ⟨Array.toList_push, rfl⟩

def Answers (s t : Server) (request : Option (Nat × String)) : Prop :=
  ∃ ms, s.Sends t ms ∧ ms.filterMap Message.answered? = request.toList

theorem Answers.none (h : t.sent = s.sent) : s.Answers t .none :=
  ⟨[], .none h, rfl⟩

theorem Answers.from {r : Server} {request : Option (Nat × String)} (h : s.Answers t request)
    (hr : s.sent = r.sent) : r.Answers t request := by
  obtain ⟨ms, hsends, hms⟩ := h
  exact ⟨ms, ⟨hr ▸ hsends.sent, hr ▸ hsends.numbers⟩, hms⟩

theorem Answers.after {request : Option (Nat × String)} (h : s.Answers t .none)
    (h' : t.Answers u request) : s.Answers u request := by
  obtain ⟨ms, hsends, hms⟩ := h
  obtain ⟨ms', hsends', hms'⟩ := h'
  exact ⟨ms ++ ms', hsends.append hsends', by rw [List.filterMap_append, hms, hms']; rfl⟩

theorem Answers.before {request : Option (Nat × String)} (h : s.Answers t request)
    (h' : t.Answers u .none) : s.Answers u request := by
  obtain ⟨ms, hsends, hms⟩ := h
  obtain ⟨ms', hsends', hms'⟩ := h'
  refine ⟨ms ++ ms', hsends.append hsends', ?_⟩
  rw [List.filterMap_append, hms, hms', Option.toList_none, List.append_nil]

theorem answers_respond (s : Server) (seq : Nat) (command : String) (body : Option Json) :
    s.Answers (s.respond seq command body) (some (seq, command)) :=
  ⟨_, s.sends_send _ _, rfl⟩

theorem answers_refuse (s : Server) (seq : Nat) (command reason : String) :
    s.Answers (s.refuse seq command reason) (some (seq, command)) :=
  Answers.from (s := s.warn _ _) ⟨_, sends_send _ _ _, rfl⟩ rfl

theorem answers_announce (s : Server) (name : String) (body : Option Json) :
    s.Answers (s.announce name body) .none :=
  ⟨_, s.sends_send _ _, rfl⟩

/-! Telling the client of the run. -/

theorem answers_flush (s : Server) : s.Answers s.flush .none := by
  have hforward (ds : List Display) : ∀ s : Server, s.Answers (ds.foldl forward s) .none := by
    induction ds with
    | nil => exact fun s => .none rfl
    | cons d ds ih =>
      intro s
      cases d with
      | text text => exact (s.answers_announce _ _).after (ih _)
      | cursor visible => exact ih s
  unfold flush
  split
  · exact .none rfl
  · exact (hforward _ s).before (.none rfl)

theorem answers_tell (s : Server) (e : SessionEvent) : s.Answers (s.tell e) .none := by
  cases e with
  | paused p => exact s.answers_announce _ _
  | terminated o =>
    exact (s.answers_flush.after (answers_announce _ _ _)).after (answers_announce _ _ _)

/-- What telling the client of the run comes to, which may move in any way between two steps of
that, and what is told of it is left open. -/
inductive Tells (s : Server) : Server → Prop
  | refl : Tells s s
  | move {t : Server} (h : Tells s t) (f : Session → Session) :
    Tells s { t with session := t.session.map f }
  | flush {t : Server} (h : Tells s t) : Tells s t.flush
  | tell {t : Server} (h : Tells s t) (e : SessionEvent) : Tells s (t.tell e)
  | warn {t : Server} (h : Tells s t) (message : String) (details : List Log.Detail) :
    Tells s (t.warn message details)

namespace Tells

theorem trans (h : s.Tells t) (h' : t.Tells u) : s.Tells u := by
  induction h' with
  | refl => exact h
  | move _ f ih => exact ih.move f
  | flush _ ih => exact ih.flush
  | tell _ e ih => exact ih.tell e
  | warn _ message details ih => exact ih.warn message details

theorem answers (h : s.Tells t) : s.Answers t .none := by
  induction h with
  | refl => exact .none rfl
  | move _ f ih => exact ih.before (.none rfl)
  | flush _ ih => exact ih.after (answers_flush _)
  | tell _ e ih => exact ih.after (answers_tell _ e)
  | warn _ message details ih => exact ih.before (.none rfl)

end Tells

theorem tells_tellAll (n : Nat) (s : Server) : s.Tells (tellAll n s) := by
  induction n generalizing s with
  | zero => exact .refl
  | succ n ih =>
    unfold tellAll
    split
    · next e session hpoll =>
      obtain ⟨before, hbefore, -⟩ := Option.map_eq_some_iff.1 hpoll
      have hmove : s.Tells { s with session := some session } := by
        simpa [hbefore] using Tells.refl.move (s := s) fun _ => session
      exact (hmove.tell e).trans (ih _)
    · exact .refl

theorem tells_pump (s : Server) : s.Tells s.pump :=
  Tells.refl.flush.trans (tells_tellAll _ _)

theorem tells_drain (patience fuel : Nat) (s : Server) : s.Tells (drain patience fuel s) := by
  induction fuel generalizing s with
  | zero =>
    unfold drain
    dsimp only
    split
    · exact s.tells_pump.warn _ _
    · exact s.tells_pump
  | succ fuel ih =>
    unfold drain
    dsimp only
    split
    · exact (s.tells_pump.move _).trans (ih _)
    · exact s.tells_pump

theorem tells_interrupt (s : Server) : s.Tells s.interrupt := by
  unfold interrupt
  split
  · exact Tells.refl.move _
  · exact .refl

/-! Requests. -/

theorem answers_beginRun (s : Server) (seq : Nat) (command : String) (job : Job) :
    s.Answers (s.beginRun seq command job) (some (seq, command)) := by
  unfold beginRun
  split
  · exact s.answers_refuse _ _ _
  · split
    · exact s.answers_refuse _ _ _
    · exact (answers_respond _ _ _ _).from rfl

theorem answers_launch (fs : FileSystem) (s : Server) (seq : Nat) (command : String)
    (arguments : Option Json) :
    s.Answers (s.launch fs seq command arguments) (some (seq, command)) := by
  unfold launch
  dsimp only
  split
  · exact s.answers_beginRun _ _ _
  · split
    · exact (answers_beginRun _ _ _ _).from rfl
    · exact s.answers_refuse _ _ _
  · exact s.answers_refuse _ _ _

theorem answers_stackTrace (s : Server) (seq : Nat) (command : String) :
    s.Answers (s.stackTrace seq command) (some (seq, command)) := by
  unfold stackTrace
  split
  · exact s.answers_refuse _ _ _
  · split
    · exact s.answers_refuse _ _ _
    · exact s.answers_respond _ _ _

theorem answers_variableList (s : Server) (seq : Nat) (command : String)
    (arguments : Option Json) :
    s.Answers (s.variableList seq command arguments) (some (seq, command)) := by
  unfold variableList
  dsimp only
  split
  · exact s.answers_refuse _ _ _
  · split
    · exact s.answers_refuse _ _ _
    · exact s.answers_respond _ _ _

theorem answers_resume (s : Server) (seq : Nat) (command : String) (d : Decision) :
    s.Answers (s.resume seq command d) (some (seq, command)) := by
  unfold resume
  split
  · exact s.answers_refuse _ _ _
  · exact (answers_refuse _ _ _ _).from rfl
  · exact (answers_respond _ _ _ _).from rfl

theorem answers_terminate (s : Server) (seq : Nat) (command : String) :
    s.Answers (s.terminate seq command) (some (seq, command)) := by
  unfold terminate
  split
  · exact s.tells_interrupt.answers.after (answers_respond _ _ _ _)
  · exact s.answers_refuse _ _ _

theorem answers_terminalInput (s : Server) (seq : Nat) (command : String)
    (arguments : Option Json) :
    s.Answers (s.terminalInput seq command arguments) (some (seq, command)) := by
  unfold terminalInput
  split
  · exact s.answers_refuse _ _ _
  · exact (answers_respond _ _ _ _).from rfl

/-- However the run moves while a server waits for its end, the response is what it sends last. -/
theorem Tells.sends_respond (h : s.Tells t) (seq : Nat) (command : String) :
    ∃ ms answer, s.Sends (t.respond seq command none) (ms ++ [answer]) ∧
      ms.filterMap Message.answered? = [] ∧ answer.answered? = some (seq, command) := by
  obtain ⟨ms, hsends, hms⟩ := h.answers
  exact ⟨ms, _, hsends.append (t.sends_send _ _), hms, rfl⟩

theorem answers_disconnect (patience : Nat) (s : Server) (seq : Nat) (command : String) :
    s.Answers (s.disconnect patience seq command) (some (seq, command)) :=
  (s.tells_interrupt.trans (tells_drain _ _ _)).answers.after (answers_respond _ _ _ _)

theorem answers_request (fs : FileSystem) (patience : Nat) (s : Server) (seq : Nat)
    (command : String) (arguments : Option Json) :
    s.Answers (s.request fs patience seq command arguments) (some (seq, command)) := by
  unfold request
  split
  · exact (s.answers_respond _ _ _).before (answers_announce _ _ _)
  · exact s.answers_launch fs _ _ _
  · exact s.answers_respond _ _ _
  · exact s.answers_respond _ _ _
  · exact s.answers_stackTrace _ _
  · exact s.answers_respond _ _ _
  · exact s.answers_variableList _ _ _
  · exact s.answers_resume _ _ _
  · exact s.answers_resume _ _ _
  · exact s.answers_resume _ _ _
  · exact s.answers_terminate _ _
  · exact s.answers_terminate _ _
  · exact s.answers_terminalInput _ _ _
  · exact s.answers_disconnect patience _ _
  · exact (answers_refuse _ _ _ _).from rfl

theorem leaves_iff (fs : FileSystem) (patience : Nat) (s : Server) (m : Message) :
    (s.handle fs patience m).1 = false ↔ ∃ seq, m.asked? = some (seq, "disconnect") := by
  obtain ⟨number, type, content⟩ := m
  cases content <;> simp [handle, Message.asked?]

theorem answers_handle (fs : FileSystem) (patience : Nat) (s : Server) (m : Message) :
    s.Answers (s.handle fs patience m).2 m.asked? := by
  obtain ⟨number, type, content⟩ := m
  cases content with
  | response | event => exact .none rfl
  | request command arguments => exact s.answers_request fs patience number command arguments

/-- A call of a server: the message it handles, or none if it only tells of the run, whether the
client stays, and the server after it. -/
inductive Calls (s : Server) : Option Message → Bool → Server → Prop
  | handle (fs : FileSystem) (patience : Nat) (m : Message) :
    Calls s (some m) (s.handle fs patience m).1 (s.handle fs patience m).2
  | pump : Calls s none true s.pump
  | tell {t : Server} (h : s.Tells t) : Calls s none true t
  | disconnect {m : Message} (hm : m.asked? = some (m.seq, "disconnect")) {t : Server}
    (h : s.Tells t) : Calls s (some m) false (t.respond m.seq "disconnect" none)

end Server

/-- A call of a server with what it sent. -/
structure Exchange where
  message : Option Message
  sent : List Message
  stays : Bool

namespace Exchange

def request? (e : Exchange) : Option (Nat × String) :=
  e.message.bind Message.asked?

/-- A request is answered once, and nothing else is; the client leaves by a request to
disconnect, the answer to which is the last that it gets. -/
structure Kept (e : Exchange) : Prop where
  answers : e.sent.filterMap Message.answered? = e.request?.toList
  leaves : e.stays = false ↔ ∃ seq, e.request? = some (seq, "disconnect")
  last : e.stays = false → ∃ before answer, e.sent = before ++ [answer] ∧
    answer.answered? = e.request?

end Exchange

namespace Server

variable {s t : Server} {m : Option Message} {stays : Bool} {es : List Exchange}

theorem Sends.drop (h : s.Sends t ms) : t.sent.toList.drop s.sent.size = ms := by
  rw [h.sent, ← Array.length_toList, List.drop_left]

theorem Calls.kept (h : s.Calls m stays t) :
    ∃ ms, s.Sends t ms ∧ (⟨m, ms, stays⟩ : Exchange).Kept := by
  have htells {t : Server} (h : s.Tells t) :
      ∃ ms, s.Sends t ms ∧ (⟨none, ms, true⟩ : Exchange).Kept := by
    obtain ⟨ms, hsends, hms⟩ := h.answers
    exact ⟨ms, hsends, hms, ⟨nofun, nofun⟩, nofun⟩
  have hdisconnect {m : Message} (hm : m.asked? = some (m.seq, "disconnect")) {t : Server}
      (h : s.Tells t) : ∃ ms, s.Sends (t.respond m.seq "disconnect" none) ms ∧
        (⟨some m, ms, false⟩ : Exchange).Kept := by
    obtain ⟨ms, answer, hsends, hms, hanswer⟩ := h.sends_respond m.seq "disconnect"
    have hrequest : (⟨some m, ms ++ [answer], false⟩ : Exchange).request? =
        some (m.seq, "disconnect") := hm
    refine ⟨ms ++ [answer], hsends, ?_, by simp [hrequest], fun _ => ⟨ms, answer, rfl, ?_⟩⟩
    · rw [List.filterMap_append, hms, hrequest]
      simp [hanswer]
    · rw [hanswer, hrequest]
  cases h with
  | pump => exact htells s.tells_pump
  | tell h => exact htells h
  | disconnect hm h => exact hdisconnect hm h
  | handle fs patience m =>
    by_cases hm : m.asked? = some (m.seq, "disconnect")
    · obtain ⟨number, type, content⟩ := m
      cases content with
      | response | event => cases hm
      | request command arguments =>
        obtain rfl : command = "disconnect" := by simpa [Message.asked?] using hm
        exact hdisconnect hm (s.tells_interrupt.trans (tells_drain patience drainTurns _))
    · obtain ⟨ms, hsends, hms⟩ := s.answers_handle fs patience m
      refine ⟨ms, hsends, hms, s.leaves_iff fs patience m, fun hleaves => ?_⟩
      obtain ⟨seq, hseq⟩ := (s.leaves_iff fs patience m).1 hleaves
      exact (hm (hseq.trans (by rw [Message.seq_of_asked? hseq]))).elim

/-- What calls of a server come to, one after the other, and what they sent. Between them the run
moves in any way. -/
inductive Goes (s : Server) : List Exchange → Server → Prop
  | refl : Goes s [] s
  | move {es : List Exchange} {t : Server} (h : Goes s es t) (f : Session → Session) :
    Goes s es { t with session := t.session.map f }
  | call {es : List Exchange} {t u : Server} {m : Option Message} {stays : Bool}
    (h : Goes s es t) (hc : t.Calls m stays u) :
    Goes s (es ++ [⟨m, u.sent.toList.drop t.sent.size, stays⟩]) u

theorem Goes.kept (h : s.Goes es t) :
    s.Sends t (es.flatMap Exchange.sent) ∧ ∀ e ∈ es, e.Kept := by
  induction h with
  | refl => exact ⟨.none rfl, nofun⟩
  | move _ f ih => exact ⟨⟨ih.1.sent, ih.1.numbers⟩, ih.2⟩
  | call _ hc ih =>
    obtain ⟨ms, hsends, hkept⟩ := hc.kept
    rw [hsends.drop]
    refine ⟨?_, fun e he => ?_⟩
    · simpa using ih.1.append hsends
    · rcases List.mem_append.1 he with he | he
      · exact ih.2 e he
      · rw [List.mem_singleton.1 he]
        exact hkept

/-- Whatever a server is asked and however the run moves: its messages bear the numbers 1, 2, 3
and so on, they are what its calls sent, one after the other, each of which answers the request it
takes once and nothing else, and the client leaves by a request to disconnect alone, of which
it gets the answer last. -/
theorem requests_answered {settings : Settings} (h : (new settings).Goes es t) :
    t.sent.toList.map Message.seq = List.range' 1 t.sent.size ∧
      t.sent.toList = es.flatMap Exchange.sent ∧
      t.sent.toList.filterMap Message.answered? = es.filterMap Exchange.request? ∧
      ∀ e ∈ es, e.Kept := by
  obtain ⟨hsends, hkept⟩ := h.kept
  have hsent : t.sent.toList = es.flatMap Exchange.sent := hsends.sent
  refine ⟨?_, hsent, ?_, hkept⟩
  · rw [hsent, hsends.numbers, hsends.size]
    simp [new]
  · rw [hsent]
    clear hsends hsent h
    induction es with
    | nil => rfl
    | cons e es ih =>
      have hanswers := (hkept e List.mem_cons_self).answers
      have hrest := ih fun e he => hkept e (List.mem_cons_of_mem _ he)
      rw [List.flatMap_cons, List.filterMap_append, hanswers, hrest]
      cases he : e.request? <;> simp [he]

def visit (fs : FileSystem) (patience : Nat) (x : List Exchange × Server) (m : Message) :
    List Exchange × Server :=
  let s := x.2.work patience
  let told := s.pump
  let t := told.handle fs patience m
  (x.1 ++ [⟨none, told.sent.toList.drop s.sent.size, true⟩] ++
    [⟨some m, t.2.sent.toList.drop told.sent.size, t.1⟩], t.2)

theorem goes_visits (fs : FileSystem) (patience : Nat) (ms : List Message)
    {x : List Exchange × Server} (h : s.Goes x.1 x.2) :
    s.Goes (ms.foldl (visit fs patience) x).1 (ms.foldl (visit fs patience) x).2 := by
  induction ms generalizing x with
  | nil => exact h
  | cons m ms ih => exact ih (((h.move _).call .pump).call (.handle fs patience m))

def stepper : List Message :=
  [⟨1, "request", .request "initialize" none⟩,
    ⟨2, "request", .request "launch" (some (.obj [("source", .str "x = 1\n")]))⟩,
    ⟨3, "request", .request "next" none⟩,
    ⟨4, "event", .event "next" none⟩,
    ⟨7, "request", .request "stackTrace" none⟩,
    ⟨7, "request", .request "disconnect" none⟩]

def stepped : List Exchange × Server :=
  stepper.foldl (visit (fun _ => .error "no such file") 60) ([], new .standard)

theorem requests_answered_stepper :
    stepped.2.sent.toList.map Message.seq = List.range' 1 9 ∧
      stepped.2.sent.toList.filterMap Message.answered? =
        [(1, "initialize"), (2, "launch"), (3, "next"), (7, "stackTrace"), (7, "disconnect")] := by
  have hgoes : (new .standard).Goes stepped.1 stepped.2 := goes_visits _ 60 stepper .refl
  obtain ⟨hseq, -, hanswers, -⟩ := requests_answered hgoes
  have hsize : stepped.2.sent.size = 9 := by decide +kernel
  rw [hsize] at hseq
  refine ⟨hseq, hanswers.trans ?_⟩
  decide +kernel

end Server

end Stepwise

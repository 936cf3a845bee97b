import Stepwise.Proofs.Adapter.Twins

/-! Where the paths in a stack come from. A stack is told with the path of the program that was
read last, whatever came of the request to launch it; it is that of the program that runs unless
another one was read since, or the run began with a source and some program was read before. -/

namespace Stepwise

/-- What came of a request to launch a program: its path, unless the source comes with the request,
the path if it could be read, and whether the request was answered with success. -/
structure Launch where
  program : Option String
  read : Option String
  started : Bool
deriving DecidableEq, Repr

namespace Launch

variable {ls : List Launch}

def lastRead (ls : List Launch) : Option String :=
  (ls.filterMap read).getLast?

theorem lastRead_append (ls ls' : List Launch) :
    lastRead (ls ++ ls') = (lastRead ls').or (lastRead ls) := by
  rw [lastRead, List.filterMap_append, List.getLast?_append]
  rfl

theorem lastRead_cons (l : Launch) (ls : List Launch) :
    lastRead (l :: ls) = (lastRead ls).or l.read := by
  rw [← List.singleton_append, lastRead_append]
  cases h : l.read <;> simp [lastRead, h]

theorem lastRead_eq_none (h : ∀ l ∈ ls, l.read = none) : lastRead ls = none := by
  rw [lastRead, List.filterMap_eq_nil_iff.2 h]
  rfl

theorem lastRead_mem {path : String} (h : lastRead ls = some path) :
    ∃ l ∈ ls, l.read = some path := by
  simpa using List.mem_of_getLast? h

/-- The launch that began the current run, between those before and those after it. -/
structure Began (ls earlier : List Launch) (l : Launch) (later : List Launch) : Prop where
  split : ls = earlier ++ l :: later
  started : l.started = true
  last : ∀ l' ∈ later, l'.started = false

theorem exists_began (h : ∃ l ∈ ls, l.started = true) :
    ∃ earlier l later, Began ls earlier l later := by
  obtain ⟨l, hl, hstarted⟩ := h
  have hfind : (ls.reverse.find? started).isSome = true :=
    List.find?_isSome.2 ⟨l, List.mem_reverse.2 hl, hstarted⟩
  obtain ⟨l, hl⟩ := Option.isSome_iff_exists.1 hfind
  obtain ⟨hstarted, later, earlier, hsplit, hlast⟩ := List.find?_eq_some_iff_append.1 hl
  refine ⟨earlier.reverse, l, later.reverse, ?_, hstarted, fun l' hl' => ?_⟩
  · rw [← List.reverse_reverse ls, hsplit]
    simp
  · simpa using hlast l' (List.mem_reverse.1 hl')

/-- No other program was read since the run began, and none before if it began with a source. -/
structure Unmixed (earlier : List Launch) (l : Launch) (later : List Launch) : Prop where
  later : ∀ l' ∈ later, l'.read = none ∨ l'.read = l.program
  earlier : l.program = none → ∀ l' ∈ earlier, l'.read = none

theorem Unmixed.path {earlier later : List Launch} {l : Launch} (h : Unmixed earlier l later) :
    (lastRead later).or (l.program.or (lastRead earlier)) = l.program := by
  have hearlier : l.program.or (lastRead earlier) = l.program := by
    cases hp : l.program with
    | some path => rfl
    | none => exact lastRead_eq_none (h.earlier hp)
  rw [hearlier]
  cases hlater : lastRead later with
  | none => rfl
  | some path =>
    obtain ⟨l', hl', hread⟩ := lastRead_mem hlater
    have hsame := h.later l' hl'
    rw [hread] at hsame
    simpa using hsame

end Launch

namespace Message

def isSuccess (m : Message) : Bool :=
  match m.content with
  | .response _ success .. => success
  | _ => false

def source? (frame : Json) : Option (String × String) := do
  let source ← frame.field? "source"
  return (← (← source.field? "name").asStr?, ← (← source.field? "path").asStr?)

/-- The names and the paths of the files of a stack that the message tells. -/
def sources? (m : Message) : Option (List (String × String)) :=
  match m.content with
  | .response _ true _ _ (some body) => do
    (← (← body.field? "stackFrames").asArr?).mapM source?
  | _ => none

theorem source?_frameBody (path : Option String) (highlight : Range) (index : Nat)
    (e : StackEntry) :
    source? (Server.frameBody path highlight index e) = some (e.file, path.getD e.file) := by
  unfold Server.frameBody
  dsimp only
  split <;> rfl

theorem mapM_source? (path : Option String) (highlight : Range) (stack : List StackEntry)
    (n : Nat) :
    ((stack.zipIdx n).map fun (e, i) => Server.frameBody path highlight i e).mapM source? =
      some (stack.map fun e => (e.file, path.getD e.file)) := by
  induction stack generalizing n with
  | nil => rfl
  | cons e stack ih =>
    rw [List.zipIdx_cons, List.map_cons, List.mapM_cons, source?_frameBody, ih]
    rfl

end Message

namespace Server

variable {s t : Server}

def readPath? (fs : FileSystem) (wanted : Option String) : Option String :=
  wanted.filter fun path => (fs path).isOk

def reading (s : Server) (path : Option String) : Server :=
  { s with programPath := path.or s.programPath }

def begun (s : Server) (S : Session) : Server :=
  { s with session := some S, forwarded := 0 }

theorem Twins.reading_right (h : s.Twins t) (path : Option String) : s.Twins (t.reading path) :=
  ⟨h.settings, h.session, h.forwarded⟩

theorem Twins.reading (h : s.Twins t) (path : Option String) :
    (s.reading path).Twins (t.reading path) :=
  ⟨h.settings, h.session, h.forwarded⟩

theorem Twins.begun (h : s.Twins t) (S : Session) : (s.begun S).Twins (t.begun S) :=
  ⟨h.settings, rfl, rfl⟩

theorem beginRun_cases (s : Server) (seq : Nat) (command : String) (job : Job) :
    (∃ reason, ∀ t : Server, s.Twins t →
      t.beginRun seq command job = t.refuse seq command reason) ∨
    (∃ S, ∀ t : Server, s.Twins t →
      t.beginRun seq command job = (t.begun S).respond seq command none) := by
  cases hactive : s.isActive with
  | true =>
    refine .inl ⟨SessionFault.alreadyActive.message, fun t h => ?_⟩
    rw [beginRun, h.isActive, hactive, if_pos rfl]
  | false =>
    cases hstart : (Session.new s.settings.recursionLimit Hint.standard).start job with
    | error e =>
      refine .inl ⟨e.message, fun t h => ?_⟩
      rw [← h.settings] at hstart
      rw [beginRun, h.isActive, hactive, if_neg Bool.false_ne_true, hstart]
    | ok S =>
      refine .inr ⟨S, fun t h => ?_⟩
      rw [← h.settings] at hstart
      rw [beginRun, h.isActive, hactive, if_neg Bool.false_ne_true, hstart]
      rfl

/-- A request to launch a program reads what it names and wants to begin a run, or cannot read and
is refused. -/
theorem launch_eq (fs : FileSystem) (s : Server) (m : Message) {arguments : Option Json}
    (hm : m.content = .request "launch" arguments) (seq : Nat) (command : String) :
    (readPath? fs (pathWanted? m) = pathWanted? m ∧ ∃ job, ∀ t : Server, s.Twins t →
      t.launch fs seq command arguments =
        (t.reading (readPath? fs (pathWanted? m))).beginRun seq command job) ∨
    (∃ reason, ∀ t : Server, t.launch fs seq command arguments =
      (t.reading (readPath? fs (pathWanted? m))).refuse seq command reason) := by
  let mode : RunMode :=
    if ((argument? arguments "noDebug").bind Json.asBool?).getD false then .normal else .debug
  cases hsource : textArgument? arguments "source" with
  | some source =>
    have hwanted : pathWanted? m = none := by simp [pathWanted?, hm, hsource]
    rw [hwanted]
    refine .inl ⟨rfl, ⟨source, (textArgument? arguments "name").getD s.settings.unitName, mode⟩,
      fun t h => ?_⟩
    simp only [launch, hsource, ← h.settings]
    rfl
  | none =>
    have hwanted : pathWanted? m = textArgument? arguments "program" := by
      simp [pathWanted?, hm, hsource]
    rw [hwanted]
    cases hprogram : textArgument? arguments "program" with
    | none =>
      refine .inr ⟨"launch needs 'program' or 'source'", fun t => ?_⟩
      simp only [launch, hsource, hprogram]
      rfl
    | some program =>
      cases hfile : fs program with
      | ok source =>
        have hread : readPath? fs (some program) = some program := by
          simp [readPath?, hfile, Except.isOk, Except.toBool]
        rw [hread]
        refine .inl ⟨rfl, ⟨source, (Files.lastName? program).getD s.settings.unitName, mode⟩,
          fun t h => ?_⟩
        simp only [launch, hsource, hprogram, hfile, ← h.settings]
        rfl
      | error reason =>
        have hread : readPath? fs (some program) = none := by
          simp [readPath?, hfile, Except.isOk, Except.toBool]
        rw [hread]
        refine .inr ⟨"cannot read " ++ program ++ ": " ++ reason, fun t => ?_⟩
        simp only [launch, hsource, hprogram, hfile]
        rfl

theorem launch_cases (fs : FileSystem) (s : Server) (m : Message) {arguments : Option Json}
    (hm : m.content = .request "launch" arguments) (seq : Nat) (command : String) :
    (∃ reason, ∀ t : Server, s.Twins t → t.launch fs seq command arguments =
      (t.reading (readPath? fs (pathWanted? m))).refuse seq command reason) ∨
    (readPath? fs (pathWanted? m) = pathWanted? m ∧ ∃ S, ∀ t : Server, s.Twins t →
      t.launch fs seq command arguments =
        ((t.reading (readPath? fs (pathWanted? m))).begun S).respond seq command none) := by
  obtain ⟨hread, job, hrun⟩ | ⟨reason, hrefused⟩ := launch_eq fs s m hm seq command
  · refine (s.beginRun_cases seq command job).imp ?_ ?_
    · rintro ⟨reason, hrefused⟩
      exact ⟨reason, fun t h => (hrun t h).trans (hrefused _ (h.reading_right _))⟩
    · rintro ⟨S, hbegun⟩
      exact ⟨hread, S, fun t h => (hrun t h).trans (hbegun _ (h.reading_right _))⟩
  · exact .inl ⟨reason, fun t _ => hrefused t⟩

theorem stackTrace_cases (s : Server) (seq : Nat) (command : String) :
    (∃ reason, s.stackTrace seq command = s.refuse seq command reason) ∨
    (∃ S pause stack, s.pause? = some (S, pause) ∧ S.gallery.stack pause.snapshot = .ok stack ∧
      s.stackTrace seq command =
        s.respond seq command (some (stackBody s.programPath pause.highlight stack))) := by
  unfold stackTrace
  split
  · exact .inl ⟨_, rfl⟩
  · next S pause hpause =>
    cases hstack : S.gallery.stack pause.snapshot with
    | error e => exact .inl ⟨e.message, rfl⟩
    | ok stack => exact .inr ⟨S, pause, stack, hpause, hstack, rfl⟩

end Server

namespace Relay

variable {r r' u u' v v' : Relay} {m : Move} {l : Launch} {p q : Option String}

def sentBy (r : Relay) (m : Move) : List Message :=
  (r.act m).server.sent.toList.drop r.server.sent.size

theorem sentBy_send {s : Server} {task : Task} {type : String} {content : Message.Content}
    (hact : r.act m = ⟨s.send type content, task⟩) (hs : s.sent = r.server.sent) :
    r.sentBy m = [⟨s.sent.size + 1, type, content⟩] := by
  rw [sentBy, hact, ← hs]
  exact (s.sends_send type content).drop

/-- What comes of a request to launch, if the move is one that the server takes. -/
def launch? (r : Relay) (m : Move) : Option Launch :=
  match r.task, m with
  | .idle, .handle fs message =>
    if m.isLaunch then
      let program := Server.pathWanted? message
      some ⟨program, Server.readPath? fs program, (r.sentBy m).any Message.isSuccess⟩
    else none
  | _, _ => none

/-- What comes of the requests to launch, in order. -/
def launches (r : Relay) : List Move → List Launch
  | [] => []
  | m :: ms => (r.launch? m).toList ++ launches (r.act m) ms

theorem isLaunch_of_launch? (h : r.launch? m = none) (hidle : r.task = .idle) :
    m.isLaunch = false := by
  cases m with
  | handle fs message => simpa [launch?, hidle] using h
  | work | pump | proceed | giveUp => rfl

theorem Twins.refl (r : Relay) : r.Twins r :=
  ⟨.refl r.server, rfl⟩

/-- A request to launch is refused, or else begins a run of what it names; the same to twins. -/
theorem launch?_cases (h : r.launch? m = some l) :
    (l.started = false ∧ ∃ seq reason, ∀ r', r.Twins r' →
      r'.act m = ⟨(r'.server.reading l.read).refuse seq "launch" reason, .idle⟩) ∨
    (l.started = true ∧ l.read = l.program ∧ ∃ seq S, ∀ r', r.Twins r' →
      r'.act m = ⟨((r'.server.reading l.read).begun S).respond seq "launch" none, .idle⟩) := by
  unfold launch? at h
  split at h
  · next fs message hidle =>
    split at h
    · next hlaunch =>
      obtain ⟨arguments, hcontent⟩ :
          ∃ arguments, message.content = .request "launch" arguments := by
        rw [Move.isLaunch, Message.asked?] at hlaunch
        cases hcontent : message.content <;> simp_all
      have hact (r' : Relay) (h' : r.Twins r') : r'.act (.handle fs message) =
          ⟨r'.server.launch fs message.seq "launch" arguments, .idle⟩ := by
        rw [act, h'.task.trans hidle, hcontent]
        rfl
      cases h
      refine (Server.launch_cases fs r.server _ hcontent message.seq "launch").imp ?_ ?_
      · rintro ⟨reason, hrefused⟩
        have hall (r' : Relay) (h' : r.Twins r') := (hact r' h').trans
          (congrArg (Relay.mk · .idle) (hrefused _ h'.server))
        refine ⟨?_, message.seq, reason, hall⟩
        dsimp only
        rw [sentBy_send (hall r (.refl r)) rfl]
        rfl
      · rintro ⟨hread, S, hbegun⟩
        have hall (r' : Relay) (h' : r.Twins r') := (hact r' h').trans
          (congrArg (Relay.mk · .idle) (hbegun _ h'.server))
        refine ⟨?_, hread, message.seq, S, hall⟩
        dsimp only
        rw [sentBy_send (hall r (.refl r)) rfl]
        rfl
    · cases h
  · cases h

/-! Which path a server remembers, and that without a launch no run began. -/

theorem programPath_act (r : Relay) (m : Move) :
    (r.act m).server.programPath =
      (Launch.lastRead (r.launch? m).toList).or r.server.programPath := by
  cases h : r.launch? m with
  | none => exact ((Twins.refl r).act (isLaunch_of_launch? h)).server.path.1
  | some l =>
    have hread : Launch.lastRead [l] = l.read := by rw [Launch.lastRead_cons]; rfl
    obtain ⟨-, seq, reason, hact⟩ | ⟨-, -, seq, S, hact⟩ := launch?_cases h
    all_goals
      rw [hact r (.refl r), Option.toList_some, hread]
      rfl

theorem programPath_acts (r : Relay) (ms : List Move) :
    (r.acts ms).server.programPath =
      (Launch.lastRead (r.launches ms)).or r.server.programPath := by
  induction ms generalizing r with
  | nil => rfl
  | cons m ms ih =>
    rw [launches, Launch.lastRead_append, Option.or_assoc, ← programPath_act]
    exact ih (r.act m)

theorem session_act (h : r.server.session = none)
    (hm : ∀ l, r.launch? m = some l → l.started = false) : (r.act m).server.session = none := by
  cases hlaunch : r.launch? m with
  | none => exact ((Twins.refl r).act (isLaunch_of_launch? hlaunch)).server.unused h
  | some l =>
    obtain ⟨-, seq, reason, hact⟩ | ⟨hstarted, -⟩ := launch?_cases hlaunch
    · rw [hact r (.refl r)]
      exact h
    · exact absurd (hm l hlaunch) (by simp [hstarted])

theorem session_acts (h : r.server.session = none) (ms : List Move)
    (hms : ∀ l ∈ r.launches ms, l.started = false) : (r.acts ms).server.session = none := by
  induction ms generalizing r with
  | nil => exact h
  | cons m ms ih =>
    obtain ⟨hm, hms⟩ := List.forall_mem_append.1 hms
    exact ih (session_act h fun l hl => hm l (by simp [hl])) hms

theorem read_of_started (ms : List Move) (hl : l ∈ r.launches ms) (h : l.started = true) :
    l.read = l.program := by
  induction ms generalizing r with
  | nil => cases hl
  | cons m ms ih =>
    rcases List.mem_append.1 hl with hl | hl
    · obtain ⟨hrefused, -⟩ | ⟨-, hread, -⟩ := launch?_cases (Option.mem_toList.1 hl)
      · exact absurd h (by simp [hrefused])
      · exact hread
    · exact ih hl

/-! Servers that part in the path that they remember. -/

/-- Two servers have done the same, the one from `r` and the other from `r'`: they sent the same,
and where they remember different paths, the one remembers `p` and the other `q`. -/
structure Beside (p q : Option String) (r r' u u' : Relay) : Prop where
  twins : u.Twins u'
  path : u'.server.programPath = u.server.programPath ∨
    u.server.programPath = p ∧ u'.server.programPath = q
  sends : ∃ ms ns, r.server.Sends u.server ms ∧ r'.server.Sends u'.server ns ∧
    List.Forall₂ (Message.Alike p q) ms ns

theorem Beside.tandem (h : Beside p q r r' u u') {s t : Server}
    (hv : Server.Tandem s t v.server v'.server) (hs : s.sent = u.server.sent)
    (ht : t.sent = u'.server.sent)
    (path : t.programPath = s.programPath ∨ s.programPath = p ∧ t.programPath = q)
    (task : v'.task = v.task) : Beside p q r r' v v' := by
  obtain ⟨ms, ns, hms, hns, halike⟩ := h.sends
  obtain ⟨ms', ns', hms', hns', halike'⟩ := hv.sends
  have hsame : List.Forall₂ (Message.Alike p q) ms' ns' := by
    rcases path with path | ⟨rfl, rfl⟩
    · exact halike'.imp fun _ _ hmn => hmn.of_eq path.symm
    · exact halike'
  refine ⟨⟨hv.twins, task⟩, ?_, ms ++ ms', ns ++ ns',
    hms.append ⟨hs ▸ hms'.sent, hs ▸ hms'.numbers⟩,
    hns.append ⟨ht ▸ hns'.sent, ht ▸ hns'.numbers⟩, List.rel_append halike hsame⟩
  rw [hv.path.1, hv.path.2]
  exact path

theorem Beside.act (h : Beside p q r r' u u') (m : Move) :
    Beside p q r r' (u.act m) (u'.act m) := by
  cases hlaunch : u.launch? m with
  | none =>
    have hact := h.twins.act (isLaunch_of_launch? hlaunch)
    exact h.tandem hact.server rfl rfl h.path hact.task
  | some l =>
    have hpath : (u'.server.reading l.read).programPath = (u.server.reading l.read).programPath ∨
        (u.server.reading l.read).programPath = p ∧
          (u'.server.reading l.read).programPath = q := by
      cases hread : l.read with
      | none => exact h.path
      | some path => exact .inl rfl
    have hreading := h.twins.server.reading l.read
    obtain ⟨-, seq, reason, hact⟩ | ⟨-, -, seq, S, hact⟩ := launch?_cases hlaunch
    · rw [hact u (.refl u), hact u' h.twins]
      exact h.tandem (hreading.refuse _ _ _) rfl rfl hpath rfl
    · rw [hact u (.refl u), hact u' h.twins]
      exact h.tandem ((hreading.begun S).respond _ _ _) rfl rfl hpath rfl

theorem Beside.acts (h : Beside p q r r' u u') (ms : List Move) :
    Beside p q r r' (u.acts ms) (u'.acts ms) := by
  induction ms generalizing u u' with
  | nil => exact h
  | cons m ms ih => exact ih (h.act m)

theorem idle_of_launch? (h : r.launch? m = some l) : r.task = .idle := by
  unfold launch? at h
  split at h
  · next hidle => exact hidle
  · cases h

theorem beside_refused (hl : r.launch? m = some l) (h : l.started = false) :
    Beside r.server.programPath (l.read.or r.server.programPath) r (r.act m) r (r.act m) := by
  obtain ⟨-, seq, reason, hact⟩ | ⟨hstarted, -⟩ := launch?_cases hl
  · have hrefused := hact r (.refl r)
    refine ⟨?_, .inr ⟨rfl, ?_⟩, [], [], .none rfl, .none rfl, .nil⟩
    · rw [hrefused]
      exact ⟨⟨rfl, rfl, rfl⟩, (idle_of_launch? hl).symm⟩
    · rw [hrefused]
      rfl
  · exact absurd h (by simp [hstarted])

theorem sources?_stackTrace {fs : FileSystem} {message answer : Message} {seq : Nat}
    (hidle : r.task = .idle) (hm : message.asked? = some (seq, "stackTrace"))
    (ha : answer ∈ r.sentBy (.handle fs message)) (hs : answer.isSuccess = true) :
    ∃ S pause stack, r.server.pause? = some (S, pause) ∧
      S.gallery.stack pause.snapshot = .ok stack ∧
      answer.sources? =
        some (stack.map fun e => (e.file, r.server.programPath.getD e.file)) := by
  obtain ⟨number, type, content⟩ := message
  obtain ⟨arguments, rfl⟩ : ∃ arguments, content = .request "stackTrace" arguments := by
    rw [Message.asked?] at hm
    cases content <;> simp_all
  have hact : r.act (.handle fs ⟨number, type, .request "stackTrace" arguments⟩) =
      ⟨r.server.stackTrace number "stackTrace", .idle⟩ := by
    rw [act, hidle]
    rfl
  obtain ⟨reason, hrefused⟩ | ⟨S, pause, stack, hpause, hstack, htold⟩ :=
    r.server.stackTrace_cases number "stackTrace"
  · rw [hrefused] at hact
    rw [sentBy_send hact rfl, List.mem_singleton] at ha
    subst ha
    cases hs
  · rw [htold] at hact
    rw [sentBy_send hact rfl, List.mem_singleton] at ha
    subst ha
    exact ⟨S, pause, stack, hpause, hstack, Message.mapM_source? _ _ _ _⟩

/-- Every stack that the server tells next gives its files the path of the program that was read
last, which is that of the program that runs if the launches are not mixed. -/
def TellsFiles (r : Relay) (ls : List Launch) : Prop :=
  ∀ fs message seq, r.task = .idle → message.asked? = some (seq, "stackTrace") →
    ∀ answer ∈ r.sentBy (.handle fs message), answer.isSuccess = true →
      ∃ S pause stack earlier l later, r.server.pause? = some (S, pause) ∧
        S.gallery.stack pause.snapshot = .ok stack ∧ Launch.Began ls earlier l later ∧
        answer.sources? = some (stack.map fun e => (e.file,
          ((Launch.lastRead later).or (l.program.or (Launch.lastRead earlier))).getD e.file)) ∧
        (Launch.Unmixed earlier l later →
          answer.sources? = some (stack.map fun e => (e.file, l.program.getD e.file)))

/-- Whatever a server does after it refused to launch a program, it would have done without that
request; the messages differ in their numbers, and in the paths of stacks if the program was read
and is not the one that was read before. -/
def BearsRefusals (r : Relay) (ls : List Launch) : Prop :=
  ∀ m l, r.launch? m = some l → l.started = false → ∀ rest,
    ∃ ms ns, r.server.Sends (r.acts rest).server ms ∧
      (r.act m).server.Sends ((r.act m).acts rest).server ns ∧
      List.Forall₂
        (Message.Alike (Launch.lastRead ls) (l.read.or (Launch.lastRead ls))) ms ns ∧
      (l.read = none ∨ l.read = Launch.lastRead ls →
        ns.map Message.toFields = ms.map Message.toFields)

/-- Whatever moves a server and its run make: the files of a stack bear the path of the program that
runs, or their own names if the run began with a source, unless another program was read since, or
some program before such a run; and a request to launch that is refused changes nothing that is
sent later but these paths, if it read another program. -/
theorem stacks_told (settings : Settings) (ms : List Move) :
    ((new settings).acts ms).TellsFiles ((new settings).launches ms) ∧
      ((new settings).acts ms).BearsRefusals ((new settings).launches ms) := by
  have hpath : ((new settings).acts ms).server.programPath =
      Launch.lastRead ((new settings).launches ms) :=
    (programPath_acts _ ms).trans (Option.or_none ..)
  refine ⟨?_, ?_⟩
  · intro fs message seq hidle hm answer ha hs
    obtain ⟨S, pause, stack, hpause, hstack, hsources⟩ := sources?_stackTrace hidle hm ha hs
    have hbegan : ∃ l ∈ (new settings).launches ms, l.started = true := by
      by_contra hnone
      have hsession := session_acts (r := new settings) rfl ms fun l hl => by
        simpa using fun h => hnone ⟨l, hl, h⟩
      rw [Server.pause?, hsession] at hpause
      cases hpause
    obtain ⟨earlier, l, later, hl⟩ := Launch.exists_began hbegan
    have hread : l.read = l.program :=
      read_of_started ms (by rw [hl.split]; simp) hl.started
    rw [hpath, hl.split, Launch.lastRead_append, Launch.lastRead_cons, hread,
      Option.or_assoc] at hsources
    refine ⟨S, pause, stack, earlier, l, later, hpause, hstack, hl, hsources, fun hunmixed => ?_⟩
    rw [hsources, hunmixed.path]
  · intro m l hl hrefused rest
    obtain ⟨xs, ys, hxs, hys, halike⟩ := ((beside_refused hl hrefused).acts rest).sends
    rw [hpath] at halike
    refine ⟨xs, ys, hxs, hys, halike, fun hread => ?_⟩
    have hsame : l.read.or (Launch.lastRead ((new settings).launches ms)) =
        Launch.lastRead ((new settings).launches ms) := by
      rcases hread with hread | hread <;> rw [hread]
      · rfl
      · exact Option.or_self
    rw [hsame] at halike
    clear hxs hys
    induction halike with
    | nil => rfl
    | cons hmn _ ih => rw [List.map_cons, List.map_cons, hmn.toFields, ih]

def desk : FileSystem := fun path =>
  if path = "job/a.py" ∨ path = "job/b.py" then .ok "x = 1\n" else .error "no such file"

def launching (name value : String) : Move :=
  .handle desk ⟨1, "request", .request "launch" (some (.obj [(name, .str value)]))⟩

def askingStack : Move :=
  .handle desk ⟨2, "request", .request "stackTrace" none⟩

def pausing (second : Move) : List Move :=
  List.replicate 60 .work ++ .pump :: List.replicate 8 .proceed ++ [second]

theorem lastName?_job : Files.lastName? "job/a.py" = some "a.py" := by
  have hsplit : "job/a.py".splitOn "/" = ["job", "a.py"] := by
    rw [String.splitOn, if_neg (by decide)]
    repeat rw [String.splitOnAux]; simp +decide only [reduceIte]
  rw [Files.lastName?, Files.parts, hsplit]
  rfl

def again : List Move :=
  launching "program" "job/a.py" :: pausing (launching "program" "job/a.py")

def afterJob : Relay :=
  ⟨((Server.new .standard).reading (some "job/a.py")).beginRun 1 "launch"
    ⟨"x = 1\n", "a.py", .debug⟩, .idle⟩

theorem act_job : (new .standard).act (launching "program" "job/a.py") = afterJob := by
  have hname : afterJob = ⟨((Server.new .standard).reading (some "job/a.py")).beginRun 1 "launch"
      ⟨"x = 1\n", (Files.lastName? "job/a.py").getD "main.py", .debug⟩, .idle⟩ := by
    rw [lastName?_job]
    rfl
  rw [hname]
  rfl

theorem stacks_told_again :
    ((new .standard).acts again).TellsFiles ((new .standard).launches again) ∧
      ((new .standard).acts again).BearsRefusals ((new .standard).launches again) ∧
      (new .standard).launches again =
        [⟨some "job/a.py", some "job/a.py", true⟩, ⟨some "job/a.py", some "job/a.py", false⟩] ∧
      (((new .standard).acts again).sentBy askingStack).map Message.sources? =
        [some [("a.py", "job/a.py")]] := by
  obtain ⟨htells, hbears⟩ := stacks_told .standard again
  refine ⟨htells, hbears, ?_, ?_⟩
  · rw [again, launches, act_job]
    decide +kernel
  · rw [again, acts, List.foldl_cons, act_job]
    decide +kernel

def mixed : List Move :=
  launching "source" "x = 1\n" :: pausing (launching "program" "job/b.py")

theorem stack_of_refused :
    (new .standard).launches mixed =
        [⟨none, none, true⟩, ⟨some "job/b.py", some "job/b.py", false⟩] ∧
      (((new .standard).acts mixed).sentBy askingStack).map Message.sources? =
        [some [("main.py", "job/b.py")]] := by
  decide +kernel

end Relay

end Stepwise

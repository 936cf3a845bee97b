import Stepwise.Proofs.Adapter.RunHistory

/-! What the client of a server sees of the runs. The history of a run is kept while the server and
the run move: it has all that was written and told, and what the client got of that. -/

namespace Stepwise

namespace Server

variable {s s' : Server} {S S' : Session} {ts : List String} {ms : List Message}

theorem texts_extends (h : s.session = some S) (h' : s'.session = some S')
    (hc : S.shared.console.Extends S'.shared.console) : ∃ ts, s'.texts = s.texts ++ ts ∧
      (S'.shared.console.output = S.shared.console.output → ts = []) := by
  obtain ⟨ds, hds⟩ := hc
  refine ⟨ds.filterMap Display.text?, ?_, fun he => ?_⟩
  · rw [texts, texts, displays_eq h, displays_eq h', ← hds, List.filterMap_append]
  · rw [he, List.append_right_eq_self] at hds
    rw [hds, List.filterMap_nil]

theorem forwardedTexts_extends (h : s.session = some S) (h' : s'.session = some S')
    (hc : S.shared.console.Extends S'.shared.console) (hf : s'.forwarded = s.forwarded)
    (hb : s.forwarded ≤ S.shared.console.output.size) :
    s'.forwardedTexts = s.forwardedTexts := by
  obtain ⟨ds, hds⟩ := hc
  rw [forwardedTexts, forwardedTexts, displays_eq h, displays_eq h', ← hds, hf,
    List.take_append_of_le_length (by simpa using hb)]

end Server

namespace Happening

variable {s s' : Server} {ts : List String} {es : List SessionEvent} {ms : List Message}

theorem between_eq (hts : s'.texts = s.texts ++ ts)
    (hes : s'.queue.drop s.queue.length = es) (hsends : s.Sends s' ms) :
    between s s' = news ts es ms := by
  rw [between, hts, List.drop_left, hes, hsends.drop]

theorem between_aside (h : s.Aside s') : ∀ x ∈ between s s', x.isAside = true := by
  obtain ⟨ms, hsends, hms⟩ := h.sends
  have htexts : s'.texts = s.texts ++ [] := by
    rw [Server.texts, Server.texts, Server.displays, Server.displays, h.session, List.append_nil]
  have hqueue : s'.queue.drop s.queue.length = [] := by
    rw [Server.queue, Server.queue, h.session, List.drop_length]
  rw [between_eq htexts hqueue hsends]
  intro x hx
  obtain ⟨m, hm, rfl⟩ := List.mem_map.1 hx
  exact hms m hm

theorem between_self (s : Server) : between s s = [] := by
  rw [between_eq (List.append_nil _).symm List.drop_length (.none rfl)]
  rfl

end Happening

namespace RunHistory

open Happening

structure Accords (l : RunHistory) (s : Server) (S : Session) (e : Errand) : Prop where
  session : s.session = some S
  comes : S.Comes e l.events
  worker : ∃ b w, S.worker = some (b, w) ∧ w.Holds S.shared.console ∧ w.HasTold l.events
  texts : l.texts = s.texts
  bounds : s.forwarded ≤ S.shared.console.output.size
  output : l.announced "output" = s.forwardedTexts.map Server.outputOf

structure Reports (l : RunHistory) (ps : List Pause) : Prop where
  stopped : l.announced "stopped" = ps.map Server.stoppedOf
  terminated : l.announced "terminated" = []
  exited : l.announced "exited" = []

inductive Stage (l : RunHistory) (s : Server) (S : Session) (task : Task) : Prop
  | running {ps : List Pause} {queue : List SessionEvent} (active : S.isActive = true)
    (events : S.shared.events = some queue) (told : l.events = ps.map .paused ++ queue)
    (reports : l.Reports ps) (outcome : task.outcome? = none)
  | concluding {ps : List Pause} {o : Outcome} (inactive : S.isActive = false)
    (events : S.shared.events = none) (told : l.events = ps.map .paused ++ [.terminated o])
    (reports : l.Reports ps) (outcome : task.outcome? = some o)
  | concluded (inactive : S.isActive = false) (events : S.shared.events = none)
    (concluded : l.Concluded) (calm : task.Calm)
    (forwarded : s.forwarded = S.shared.console.output.size)

def Follows (l : RunHistory) (r : Relay) : Prop :=
  ∃ S, l.Accords r.server S r.task.errand ∧ l.Stage r.server S r.task

variable {l : RunHistory} {s s' : Server} {S S' : Session} {e e' : Errand} {task task' : Task}
  {ts : List String} {es : List SessionEvent} {ms : List Message} {r r' : Relay}

theorem Accords.move (h : l.Accords s S e) (session : s'.session = some S')
    (forwarded : s'.forwarded = s.forwarded)
    (written : S.shared.console.Extends S'.shared.console) (hts : s'.texts = s.texts ++ ts)
    (comes : S'.Comes e' (l.events ++ es))
    (worker : ∃ b w, S'.worker = some (b, w) ∧ w.Holds S'.shared.console ∧
      w.HasTold (l.events ++ es))
    (hms : ms.filterMap (Message.announced? "output") = []) :
    (l ++ news ts es ms).Accords s' S' e' where
  session := session
  comes := (events_append_news ..).symm ▸ comes
  worker := (events_append_news ..).symm ▸ worker
  texts := by rw [texts_append_news, h.texts, hts]
  bounds := by
    have hle := written.length_le
    rw [Array.length_toList, Array.length_toList] at hle
    exact forwarded ▸ h.bounds.trans hle
  output := by
    rw [announced_append_news, hms, List.append_nil, h.output,
      Server.forwardedTexts_extends h.session session written forwarded h.bounds]

theorem Reports.news {ps qs : List Pause} (h : l.Reports ps)
    (stopped : ms.filterMap (Message.announced? "stopped") = qs.map Server.stoppedOf)
    (terminated : ms.filterMap (Message.announced? "terminated") = [])
    (exited : ms.filterMap (Message.announced? "exited") = []) :
    (l ++ Happening.news ts es ms).Reports (ps ++ qs) where
  stopped := by rw [announced_append_news, h.stopped, stopped, List.map_append]
  terminated := by rw [announced_append_news, h.terminated, terminated]; rfl
  exited := by rw [announced_append_news, h.exited, exited]; rfl

theorem Reports.same {ps : List Pause} (h : l.Reports ps)
    (hms : ∀ name ∈ ["stopped", "terminated", "exited"],
      ms.filterMap (Message.announced? name) = []) :
    (l ++ Happening.news ts es ms).Reports ps := by
  have hnews : (l ++ Happening.news ts es ms).Reports (ps ++ []) :=
    h.news (hms _ (by simp)) (hms _ (by simp)) (hms _ (by simp))
  rwa [List.append_nil] at hnews

theorem Reports.asides {ps : List Pause} (h : l.Reports ps) (hms : ∀ m ∈ ms, m.isAside = true) :
    (l ++ Happening.news ts es ms).Reports ps :=
  h.same fun _ hname => announced_asides hms (List.mem_cons_of_mem _ hname)

theorem pauses_eq {ps : List Pause} {rest : List SessionEvent}
    (h : l.events = ps.map .paused ++ rest) :
    l.pauses = ps ++ rest.filterMap SessionEvent.pause? := by
  rw [pauses, h, List.filterMap_append, List.filterMap_map]
  exact congrArg (· ++ _) List.filterMap_some

theorem Accords.ended (h : l.Accords s S e) {before rest : List SessionEvent} {o : Outcome}
    (hes : l.events = before ++ .terminated o :: rest) :
    rest = [] ∧ S.shared.console.slot = none ∧ ∃ b arena, S.worker = some (b, .finished arena) := by
  obtain ⟨b, w, hw, hholds, htold⟩ := h.worker
  rw [hes] at htold
  obtain ⟨hrest, arena, rfl⟩ := htold.last
  exact ⟨hrest, hholds, b, arena, hw⟩

theorem Follows.at (h : l.Follows ⟨s, task⟩) (hS : s.session = some S) :
    l.Accords s S task.errand ∧ l.Stage s S task := by
  obtain ⟨S', haccords, hstage⟩ := h
  obtain rfl : S' = S := Option.some.inj (haccords.session.symm.trans hS)
  exact ⟨haccords, hstage⟩

theorem Follows.steer {a : Action} (h : l.Follows ⟨s, task⟩)
    (hs : Relay.Steers ⟨s, task⟩ s' task' S S' a) : (l ++ between s s').Follows ⟨s', task'⟩ := by
  obtain ⟨hS, aside, steered, outcome, outcome', events, keeps, written, active, calm⟩ := hs
  obtain ⟨haccords, hstage⟩ := h.at hS
  obtain ⟨ms, hsends, hms⟩ := aside.sends
  have hS' : s'.session = some S' := aside.session
  obtain ⟨ts, hts, hts'⟩ := Server.texts_extends hS hS' written
  have hqueue : s'.queue.drop s.queue.length = [] := by
    rw [Server.queue_eq hS, Server.queue_eq hS', events, List.drop_length]
  rw [between_eq hts hqueue (hsends.congr rfl rfl)]
  obtain ⟨hcomes, htouched⟩ := haccords.comes.steered steered
  have haccords' : (l ++ news ts [] ms).Accords s' S' task'.errand := by
    refine haccords.move hS' aside.forwarded written hts (by simpa using hcomes) ?_
      (announced_asides hms (by simp [Message.runEvents]))
    obtain ⟨b, w, hw, hholds, htold⟩ := haccords.worker
    obtain ⟨w', hw', ht⟩ := htouched b w hw
    refine ⟨b, w', hw', (ht.holds hholds).keeps keeps, ?_⟩
    rw [List.append_nil]
    exact ht.hasTold htold
  refine ⟨S', haccords', ?_⟩
  cases hstage with
  | running hactive hevents htold hreports =>
    exact .running (active hactive) (events.trans hevents) (by simpa using htold)
      (hreports.asides hms) outcome'
  | concluding _ _ _ _ ho => cases outcome.symm.trans ho
  | concluded hinactive hevents hconcluded hcalm hforwarded =>
    obtain ⟨o, htold⟩ := hconcluded.known.2
    obtain ⟨-, hslot, -⟩ := haccords.ended htold
    obtain ⟨hinactive', hcalm', houtput⟩ := calm hinactive hcalm hslot
    obtain rfl := hts' houtput
    exact .concluded hinactive' (events.trans hevents) (hconcluded.asides hms) hcalm'
      (by rw [houtput, ← hforwarded]; exact aside.forwarded)

theorem Follows.same (h : l.Follows r) : (l ++ between r.server r.server).Follows r := by
  rwa [between_self, List.append_nil]

theorem Follows.rest (h : l.Follows ⟨s, task⟩) (aside : s.Aside s')
    (outcome : task.outcome? = none) (outcome' : task'.outcome? = none)
    (errand : s.session.isSome = true → task'.errand = task.errand)
    (calm : task.Calm → task'.Calm) :
    (l ++ between s s').Follows ⟨s', task'⟩ := by
  obtain ⟨S, hS⟩ : ∃ S, s.session = some S := h.imp fun S h => h.1.session
  have hsteered : S.Steered task.errand S task'.errand (.terminal id) := by
    refine ⟨rfl, ?_⟩
    rintro sys rfl he
    exact ⟨rfl, he.trans (errand (by rw [hS]; rfl)).symm⟩
  exact h.steer ⟨hS, (Server.withSession_self hS).symm ▸ aside, hsteered, outcome, outcome', rfl,
    .of_slot_eq rfl rfl, .of_eq rfl, id, fun hinactive ht _ => ⟨hinactive, calm ht, rfl⟩⟩

theorem step_of_finished {b : Brief} {arena : Arena} (h : S.worker = some (b, .finished arena)) :
    S.step = S := by
  obtain ⟨limit, rules, files, state, shared, worker⟩ := S
  obtain rfl : worker = some (b, .finished arena) := h
  rfl

theorem Follows.work (h : l.Follows r) :
    (l ++ between r.server (r.act .work).server).Follows (r.act .work) := by
  obtain ⟨S, haccords, hstage⟩ := h
  have hS : r.server.session = some S := haccords.session
  have hact : (r.act .work).server = r.server.withSession S.step := by
    simp only [Relay.act, hS]
    rfl
  have hended {before rest : List SessionEvent} {o : Outcome}
      (hes : l.events = before ++ .terminated o :: rest) : r.act .work = r := by
    obtain ⟨-, -, b, arena, hw⟩ := haccords.ended hes
    have hserver : r.server.withSession S.step = r.server := by
      rw [step_of_finished hw, Server.withSession_self hS]
    rw [← hact] at hserver
    calc r.act .work = ⟨(r.act .work).server, r.task⟩ := rfl
      _ = r := by rw [hserver]
  cases hstage with
  | concluding hinactive hevents htold hreports houtcome =>
    rw [hended htold]
    exact .same ⟨S, haccords, .concluding hinactive hevents htold hreports houtcome⟩
  | concluded hinactive hevents hconcluded hcalm hforwarded =>
    obtain ⟨o, htold⟩ := hconcluded.known.2
    rw [hended htold]
    exact .same ⟨S, haccords, .concluded hinactive hevents hconcluded hcalm hforwarded⟩
  | @running ps queue hactive hevents htold hreports houtcome =>
    obtain ⟨b, w, hw, hholds, hhastold⟩ := haccords.worker
    have hstep : S.step = { S with
        worker := some (b, (w.step b S.shared).1), shared := (w.step b S.shared).2 } := by
      rw [Session.step, hw]
    have hS' : (r.act .work).server.session = some S.step := by rw [hact]; rfl
    have hwritten : S.shared.console.Extends S.step.shared.console := by
      rw [hstep]
      exact w.extends_step b S.shared
    obtain ⟨ts, hts, -⟩ := Server.texts_extends hS hS' hwritten
    have hevents' : S.step.shared.events = some (queue ++ w.tells) := by
      rw [hstep]
      exact (w.events_step_eq b S.shared).trans (by rw [hevents]; rfl)
    have hqueue : (r.act .work).server.queue.drop r.server.queue.length = w.tells := by
      rw [Server.queue_eq hS, Server.queue_eq hS', hevents, hevents']
      exact List.drop_left
    have hsends : r.server.Sends (r.act .work).server [] := .none rfl
    rw [between_eq hts hqueue hsends]
    refine ⟨S.step, haccords.move hS' rfl hwritten hts ?_ ?_ rfl, ?_⟩
    · exact haccords.comes.step hw (.inl (by rw [hevents]; rfl))
    · refine ⟨b, _, by rw [hstep], ?_, hhastold.step b S.shared⟩
      rw [hstep]
      exact hholds.step b
    · refine .running ?_ hevents' ?_ (hreports.asides (List.forall_mem_nil _)) houtcome
      · rw [hstep]
        exact hactive
      · rw [events_append_news, htold, List.append_assoc]

theorem sends_forwardNext (s : Server) (d : Display) : ∃ ms, s.Sends (s.forwardNext d) ms ∧
    ms.filterMap (Message.announced? "output") = d.text?.toList.map Server.outputOf ∧
    ∀ name, name ≠ "output" → ms.filterMap (Message.announced? name) = [] := by
  cases d with
  | cursor visible => exact ⟨[], .none rfl, rfl, fun _ _ => rfl⟩
  | text text =>
    have hsends := s.sends_send "event" (.event "output" (some (Server.outputBody text)))
    refine ⟨_, hsends.congr rfl rfl, rfl, fun name hname => ?_⟩
    simp [Message.announced?, hname.symm]

theorem Follows.forward {d : Display} (h : l.Follows ⟨s, task⟩) (unsent : s.unsent? = some d) :
    (l ++ between s (s.forwardNext d)).Follows ⟨s.forwardNext d, task⟩ := by
  obtain ⟨S, haccords, hstage⟩ := h
  have hS : s.session = some S := haccords.session
  have hS' : (s.forwardNext d).session = some S := (s.session_forward d).trans hS
  have hget : S.shared.console.output[s.forwarded]? = some d := by
    rw [← unsent, Server.unsent?, hS]
    rfl
  obtain ⟨hlt, -⟩ := Array.getElem?_eq_some_iff.1 hget
  obtain ⟨ms, hsends, houtput, hothers⟩ := sends_forwardNext s d
  have htexts : (s.forwardNext d).texts = s.texts ++ [] := by
    rw [Server.texts, Server.texts, Server.displays_eq hS, Server.displays_eq hS', List.append_nil]
  have hqueue : (s.forwardNext d).queue.drop s.queue.length = [] := by
    rw [Server.queue_eq hS, Server.queue_eq hS', List.drop_length]
  rw [between_eq htexts hqueue hsends]
  have hreports {ps : List Pause} (h : l.Reports ps) : (l ++ news [] [] ms).Reports ps :=
    h.same fun name hname => hothers name (by rintro rfl; simp at hname)
  refine ⟨S, ⟨hS', ?_, ?_, ?_, hlt, ?_⟩, ?_⟩
  · simpa using haccords.comes
  · simpa using haccords.worker
  · rw [texts_append_news, haccords.texts, htexts]
  · have hforwarded : (s.forwardNext d).forwardedTexts = s.forwardedTexts ++ d.text?.toList := by
      rw [← Array.getElem?_toList] at hget
      rw [Server.forwardedTexts, Server.forwardedTexts, Server.displays_eq hS,
        Server.displays_eq hS']
      change ((S.shared.console.output.toList.take (s.forwarded + 1)).filterMap _) = _
      rw [List.take_add_one, hget, List.filterMap_append]
      cases d <;> rfl
    rw [announced_append_news, haccords.output, houtput, hforwarded, List.map_append]
  · cases hstage with
    | running hactive hevents htold h houtcome =>
      exact .running hactive hevents (by simpa using htold) (hreports h) houtcome
    | concluding hinactive hevents htold h houtcome =>
      exact .concluding hinactive hevents (by simpa using htold) (hreports h) houtcome
    | concluded _ _ _ _ hforwarded => exact absurd hlt (by rw [hforwarded]; exact Nat.lt_irrefl _)

theorem Accords.poll {first : SessionEvent} {rest : List SessionEvent} (h : l.Accords s S .none)
    (t : Server) (hevents : S.shared.events = some (first :: rest))
    (hS' : S' = { S with shared := { S.shared with events := some rest } }.receive first)
    (session : t.session = some S') (forwarded : t.forwarded = s.forwarded)
    (sends : s.Sends t ms) (hms : ms.filterMap (Message.announced? "output") = []) :
    between s t = news [] [] ms ∧ (l ++ news [] [] ms).Accords t S' .none := by
  have hsteered : S.Steered .none S' .none .poll := by
    refine ⟨rfl, ?_⟩
    rintro sys rfl he
    simp only [System.act, Session.poll, he, hevents, hS']
    exact ⟨trivial, trivial⟩
  obtain ⟨hconsole, hworker⟩ : S'.shared.console = S.shared.console ∧ S'.worker = S.worker := by
    cases first <;> rw [hS'] <;> exact ⟨rfl, rfl⟩
  have htexts : t.texts = s.texts ++ [] := by
    rw [Server.texts, Server.texts, Server.displays_eq h.session, Server.displays_eq session,
      hconsole, List.append_nil]
  have hdrop : t.queue.drop s.queue.length = [] := by
    refine List.drop_eq_nil_of_le ?_
    rw [Server.queue_eq h.session, Server.queue_eq session, hevents, hS']
    cases first with
    | paused p => exact Nat.le_succ _
    | terminated o => exact Nat.zero_le _
  refine ⟨between_eq htexts hdrop sends, h.move session forwarded ?_ htexts ?_ ?_ hms⟩
  · rw [hconsole]
    exact .of_eq rfl
  · rw [List.append_nil]
    exact (h.comes.steered hsteered).1
  · rw [List.append_nil, hworker, hconsole]
    exact h.worker

theorem Follows.take {p : Pause} {rest : List SessionEvent} (h : l.Follows ⟨s, task⟩)
    (hS : s.session = some S) (hevents : S.shared.events = some (.paused p :: rest))
    (calm : task.Calm) (calm' : task'.Calm) {S' : Session}
    (hS' : S' = { S with shared := { S.shared with events := some rest } }.receive (.paused p)) :
    (l ++ between s ((s.withSession S').tell (.paused p))).Follows
      ⟨(s.withSession S').tell (.paused p), task'⟩ := by
  obtain ⟨haccords, hstage⟩ := h.at hS
  rw [calm.errand] at haccords
  cases hstage with
  | concluding _ hnone | concluded _ hnone => cases hnone.symm.trans hevents
  | @running ps queue hactive hqueue htold hreports houtcome =>
    obtain rfl : queue = .paused p :: rest := Option.some.inj (hqueue.symm.trans hevents)
    have hsends := (s.withSession S').sends_send "event"
      (.event "stopped" (some (Server.stoppedBody p)))
    obtain ⟨hbetween, haccords'⟩ := haccords.poll ((s.withSession S').tell (.paused p)) hevents
      hS' rfl rfl (hsends.congr rfl rfl) rfl
    rw [hbetween]
    have hreports' : (l ++ news [] [] [⟨s.sent.size + 1, "event",
        .event "stopped" (some (Server.stoppedBody p))⟩]).Reports (ps ++ [p]) :=
      hreports.news rfl rfl rfl
    refine ⟨S', calm'.errand.symm ▸ haccords', .running (by rw [hS']; rfl) (by rw [hS']; rfl) ?_
      hreports' calm'.outcome⟩
    rw [events_append_news, htold, List.map_append, List.append_nil, List.append_assoc]
    rfl

theorem Follows.finish {o : Outcome} {rest : List SessionEvent} (h : l.Follows ⟨s, task⟩)
    (hS : s.session = some S) (hevents : S.shared.events = some (.terminated o :: rest))
    (calm : task.Calm) (errand : task'.errand = .none) (outcome : task'.outcome? = some o)
    {S' : Session}
    (hS' : S' = { S with shared := { S.shared with events := some rest } }.receive
      (.terminated o)) :
    (l ++ between s (s.withSession S')).Follows ⟨s.withSession S', task'⟩ := by
  obtain ⟨haccords, hstage⟩ := h.at hS
  rw [calm.errand] at haccords
  cases hstage with
  | concluding _ hnone | concluded _ hnone => cases hnone.symm.trans hevents
  | @running ps queue hactive hqueue htold hreports houtcome =>
    obtain rfl : queue = .terminated o :: rest := Option.some.inj (hqueue.symm.trans hevents)
    obtain ⟨rfl, -⟩ := haccords.ended htold
    obtain ⟨hbetween, haccords'⟩ := haccords.poll (s.withSession S') hevents hS' rfl rfl
      (.none rfl) rfl
    rw [hbetween]
    exact ⟨S', errand.symm ▸ haccords', .concluding (by rw [hS']; rfl) (by rw [hS']; rfl)
      (by simpa using htold) (hreports.asides (List.forall_mem_nil _)) outcome⟩

theorem sends_conclude (s : Server) (o : Outcome) : s.Sends (s.conclude o)
    [⟨s.sent.size + 1, "event", .event "terminated" (some o.toJson)⟩,
      ⟨s.sent.size + 1 + 1, "event",
        .event "exited" (some (.obj [("exitCode", Json.nat o.exitCode)]))⟩] := by
  have hterminated := s.sends_send "event" (.event "terminated" (some o.toJson))
  have hexited := (s.send "event" (.event "terminated" (some o.toJson))).sends_send "event"
    (.event "exited" (some (.obj [("exitCode", Json.nat o.exitCode)])))
  rw [hterminated.size] at hexited
  exact hterminated.append hexited

theorem Follows.conclude {o : Outcome} (h : l.Follows ⟨s, task⟩) (unsent : s.unsent? = none)
    (outcome : task.outcome? = some o) (calm : task'.Calm) :
    (l ++ between s (s.conclude o)).Follows ⟨s.conclude o, task'⟩ := by
  obtain ⟨S, haccords, hstage⟩ := h
  have hS : s.session = some S := haccords.session
  have hforwarded : s.forwarded = S.shared.console.output.size := by
    rw [Server.unsent?, hS, Option.bind_some, Array.getElem?_eq_none_iff] at unsent
    exact Nat.le_antisymm haccords.bounds unsent
  cases hstage with
  | running _ _ _ _ houtcome => cases houtcome.symm.trans outcome
  | concluded _ _ _ hcalm => cases hcalm.outcome.symm.trans outcome
  | @concluding ps o' hinactive hevents htold hreports houtcome =>
    obtain rfl : o' = o := Option.some.inj (houtcome.symm.trans outcome)
    have hS' : (s.conclude o').session = some S := hS
    have htexts : (s.conclude o').texts = s.texts ++ [] := (List.append_nil _).symm
    have hqueue : (s.conclude o').queue.drop s.queue.length = [] := List.drop_length
    rw [between_eq htexts hqueue (sends_conclude s o')]
    have herrand : task'.errand = task.errand := by
      cases task <;> first | exact calm.errand | cases outcome
    have hall : s.forwardedTexts = l.texts := by
      rw [haccords.texts, Server.forwardedTexts, Server.texts, Server.displays_eq hS, hforwarded,
        List.take_of_length_le (by simp)]
    refine ⟨S, haccords.move hS' rfl (.of_eq rfl) htexts ?_ ?_ rfl, .concluded hinactive hevents ?_
      calm hforwarded⟩
    · rw [List.append_nil]
      exact herrand ▸ haccords.comes
    · rw [List.append_nil]
      exact haccords.worker
    · have hpauses : l.pauses = ps := by rw [pauses_eq htold]; exact List.append_nil _
      refine @Concluded.intro _ l [] (s.sent.size + 1) o' rfl ?_ ?_ ?_ ?_ hreports.terminated
        hreports.exited (List.forall_mem_nil _)
      · rw [haccords.output, hall]
      · rw [hpauses, htold]
      · rw [hpauses, hreports.stopped]
      · rw [hpauses]
        exact haccords.comes.numbered (.inr ⟨o', htold⟩)

theorem Follows.does (h : l.Follows r) (hd : r.Does r') :
    (l ++ between r.server r'.server).Follows r' := by
  cases hd with
  | same => exact h.same
  | rest aside outcome outcome' errand calm => exact h.rest aside outcome outcome' errand calm
  | steer hs => exact h.steer hs
  | work => exact h.work
  | forward unsent => exact h.forward unsent
  | take session events calm calm' => exact h.take session events calm calm' rfl
  | finish session events calm errand outcome =>
    exact h.finish session events calm errand outcome rfl
  | conclude unsent outcome calm => exact h.conclude unsent outcome calm

theorem isActive_eq (h : s.session = some S) : s.isActive = S.isActive := by
  rw [Server.isActive, h]
  rfl

theorem Follows.isActive_of_does (h : l.Follows r) (hd : r.Does r')
    (hr' : r'.server.isActive = true) : r.server.isActive = true := by
  obtain ⟨S, haccords, hstage⟩ := h
  have hS : r.server.session = some S := haccords.session
  rw [isActive_eq hS]
  have hkept {s' : Server} (hs' : s'.session = r.server.session) (h : s'.isActive = true) :
      S.isActive = true := by
    rwa [isActive_eq (hs'.trans hS)] at h
  have htaken {first : SessionEvent} {rest : List SessionEvent} {S' : Session}
      (hS' : r.server.session = some S') (he : S'.shared.events = some (first :: rest)) :
      S.isActive = true := by
    obtain rfl : S = S' := Option.some.inj (hS.symm.trans hS')
    cases hstage with
    | running hactive => exact hactive
    | concluding _ hnone | concluded _ hnone => cases hnone.symm.trans he
  cases hd with
  | same => exact hkept rfl hr'
  | rest aside => exact hkept aside.session hr'
  | work =>
    have hstep : S.step.isActive = S.isActive := by
      rw [Session.step]
      split <;> rfl
    rw [← hstep, ← hr']
    exact (isActive_eq (by rw [hS]; rfl)).symm
  | forward unsent => exact hkept (r.server.session_forward _) hr'
  | take session events => exact htaken session events
  | finish session events => exact htaken session events
  | conclude => exact hkept rfl hr'
  | steer hs =>
    obtain rfl : S = _ := Option.some.inj (hS.symm.trans hs.session)
    cases hstage with
    | running hactive => exact hactive
    | concluding _ _ _ _ ho => cases hs.outcome.symm.trans ho
    | concluded hinactive _ hconcluded hcalm =>
      obtain ⟨o, htold⟩ := hconcluded.known.2
      obtain ⟨-, hslot, -⟩ := haccords.ended htold
      rw [isActive_eq hs.aside.session, (hs.calm hinactive hcalm hslot).1] at hr'
      cases hr'

theorem follows_launches (h : r.Launches r') :
    (between r.server r'.server).Follows r' ∧ r'.server.isActive = true := by
  obtain ⟨limit, rules, job, haside⟩ := h.begins
  obtain ⟨ms, hsends, hms⟩ := haside.sends
  have hS' : r'.server.session = some (System.launched limit rules job).session := haside.session
  have hforwarded : r'.server.forwarded = 0 := haside.forwarded
  have htexts : r'.server.texts = [] := by
    rw [Server.texts, Server.displays_eq hS']
    rfl
  have hqueue : r'.server.queue = [] := Server.queue_eq hS'
  have hbetween : between r.server r'.server = [] ++ news [] [] ms := by
    rw [between, htexts, hqueue, (hsends.congr rfl rfl : r.server.Sends r'.server ms).drop,
      List.drop_nil, List.drop_nil]
    rfl
  have hnone {name : String} (hname : name ∈ Message.runEvents) :
      announced name ([] ++ news [] [] ms) = [] :=
    (announced_append_asides [] [] [] hms hname).trans rfl
  rw [hbetween]
  refine ⟨⟨_, ⟨hS', ?_, ?_, ?_, ?_, ?_⟩, ?_⟩, isActive_eq hS'⟩
  · rw [h.task, events_append_news]
    exact Session.comes_launched limit rules job
  · rw [events_append_news]
    exact ⟨_, _, rfl, rfl, .moving (fun _ h => by cases h) []⟩
  · rw [texts_append_news, htexts]
    rfl
  · rw [hforwarded]
    exact Nat.zero_le _
  · rw [hnone (by simp [Message.runEvents]), Server.forwardedTexts, hforwarded, List.take_zero]
    rfl
  · have hreports : Reports ([] ++ news [] [] ms) [] :=
      ⟨hnone (by simp [Message.runEvents]), hnone (by simp [Message.runEvents]),
        hnone (by simp [Message.runEvents])⟩
    exact .running rfl rfl (by rw [events_append_news]; rfl) hreports (by rw [h.task]; rfl)

theorem Follows.concluded (h : l.Follows r) (hl : r.Launches r') : l.Concluded := by
  obtain ⟨S, haccords, hstage⟩ := h
  have hinactive := hl.inactive
  rw [isActive_eq haccords.session] at hinactive
  cases hstage with
  | running hactive => cases hactive.symm.trans hinactive
  | concluding _ _ _ _ ho =>
    rw [hl.idle] at ho
    cases ho
  | concluded _ _ hconcluded => exact hconcluded

theorem Accords.numbered (h : l.Accords s S e) :
    l.pauses.map Pause.seq = List.range' 1 l.pauses.length := by
  obtain ⟨b, w, -, -, htold⟩ := h.worker
  generalize hes : l.events = es at htold
  cases htold with
  | moving hw ps =>
    have hpauses : l.pauses = ps := by
      have htold : l.events = ps.map .paused ++ [] := by rw [hes, List.append_nil]
      rw [pauses_eq htold]
      exact List.append_nil _
    rw [hpauses]
    exact h.comes.numbered (.inl hes)
  | ended arena ps o =>
    have hpauses : l.pauses = ps := by
      rw [pauses_eq hes]
      exact List.append_nil _
    rw [hpauses]
    exact h.comes.numbered (.inr ⟨o, hes⟩)

theorem Accords.output_prefix (h : l.Accords s S e) :
    l.announced "output" <+: l.texts.map Server.outputOf := by
  rw [h.output, h.texts]
  exact ((List.take_prefix _ _).filterMap _).map _

theorem Follows.seen (h : l.Follows r) : l.Underway ∨ l.Concluded := by
  obtain ⟨S, haccords, hstage⟩ := h
  have hunderway {ps : List Pause} {rest : List SessionEvent}
      (htold : l.events = ps.map .paused ++ rest) (hreports : l.Reports ps) : l.Underway := by
    refine ⟨haccords.output_prefix, ?_, haccords.numbered, hreports.terminated, hreports.exited⟩
    rw [hreports.stopped, pauses_eq htold, List.map_append]
    exact List.prefix_append _ _
  cases hstage with
  | running _ _ htold hreports => exact .inl (hunderway htold hreports)
  | concluding _ _ htold hreports => exact .inl (hunderway htold hreports)
  | concluded _ _ hconcluded => exact .inr hconcluded

theorem Follows.known (h : l.Follows r) (unsent : r.server.unsent? = none)
    (hqueue : r.server.queue = []) (outcome : r.task.outcome? = none) : l.Known := by
  obtain ⟨S, haccords, hstage⟩ := h
  have hS : r.server.session = some S := haccords.session
  cases hstage with
  | concluding _ _ _ _ ho => cases outcome.symm.trans ho
  | concluded _ _ hconcluded => exact hconcluded.known.1
  | @running ps queue _ hevents htold hreports =>
    have hnil : queue = [] := by
      rw [Server.queue_eq hS, hevents] at hqueue
      exact hqueue
    subst hnil
    refine ⟨?_, ?_, fun o ho => ?_⟩
    · rw [Server.unsent?, hS, Option.bind_some, Array.getElem?_eq_none_iff] at unsent
      rw [haccords.output, haccords.texts, Server.forwardedTexts, Server.texts,
        Server.displays_eq hS, List.take_of_length_le (by simpa using unsent)]
    · rw [hreports.stopped, pauses_eq htold]
      exact congrArg _ (List.append_nil _).symm
    · rw [htold, List.append_nil] at ho
      obtain ⟨p, -, hp⟩ := List.mem_map.1 ho
      cases hp

end RunHistory

/-- A server with what happened before its first run, and in each of the runs, the latest first. -/
structure RelayHistory where
  relay : Relay
  prelude : RunHistory
  runs : List RunHistory

namespace RelayHistory

def new (settings : Settings) : RelayHistory :=
  ⟨.new settings, [], []⟩

def act (c : RelayHistory) (m : Relay.Move) : RelayHistory :=
  let relay := c.relay.act m
  let news := Happening.between c.relay.server relay.server
  if relay.server.isActive && !c.relay.server.isActive then ⟨relay, c.prelude, news :: c.runs⟩
  else
    match c.runs with
    | [] => ⟨relay, c.prelude ++ news, []⟩
    | l :: ls => ⟨relay, c.prelude, (l ++ news) :: ls⟩

def acts (c : RelayHistory) (ms : List Relay.Move) : RelayHistory :=
  ms.foldl act c

/-- What the client sees of the runs. A new run begins when the end of the one before it was told,
and no message and no text is missing in the histories. -/
structure Seen (c : RelayHistory) : Prop where
  prelude : ∀ x ∈ c.prelude, x.isAside = true
  past : ∀ l ∈ c.runs.tail, l.Concluded
  current : ∀ l ∈ c.runs.head?, l.Underway ∨ l.Concluded
  messages : RunHistory.messages (c.prelude ++ c.runs.reverse.flatten) = c.relay.server.sent.toList
  texts : ∀ l ∈ c.runs.head?, l.texts = c.relay.server.texts

structure Kept (c : RelayHistory) : Prop where
  prelude : ∀ x ∈ c.prelude, x.isAside = true
  past : ∀ l ∈ c.runs.tail, l.Concluded
  current : ∀ l ∈ c.runs.head?, l.Follows c.relay
  unused : c.runs = [] → c.relay.server.session = none ∧ c.relay.task.Calm
  messages : RunHistory.messages (c.prelude ++ c.runs.reverse.flatten) = c.relay.server.sent.toList

variable {c : RelayHistory}

theorem kept_new (settings : Settings) : (new settings).Kept :=
  ⟨List.forall_mem_nil _, List.forall_mem_nil _, by simp [new], fun _ => ⟨rfl, Task.calm_idle⟩, rfl⟩

theorem messages_append (l l' : RunHistory) :
    RunHistory.messages (l ++ l') = RunHistory.messages l ++ RunHistory.messages l' :=
  List.filterMap_append

theorem messages_between {s s' : Server} {ms : List Message} (h : s.Sends s' ms) :
    RunHistory.messages (Happening.between s s') = ms := by
  have hnews := RunHistory.messages_append_news [] (s'.texts.drop s.texts.length)
    (s'.queue.drop s.queue.length) ms
  rw [Happening.between, h.drop]
  exact hnews

theorem does_unused {r r' : Relay} (h : r.Does r') (hs : r.server.session = none)
    (ht : r.task.Calm) :
    r'.server.session = none ∧ r'.task.Calm ∧ r.server.Aside r'.server := by
  cases h with
  | same => exact ⟨hs, ht, .refl _⟩
  | rest aside _ _ _ calm => exact ⟨aside.session.trans hs, calm ht, aside⟩
  | work => exact ⟨by rw [hs]; rfl, ht, .of_eq (by rw [hs]; rfl) rfl rfl⟩
  | forward unsent => simp [Server.unsent?, hs] at unsent
  | conclude _ outcome => cases outcome.symm.trans ht.outcome
  | take session | finish session => cases hs.symm.trans session
  | steer h => cases hs.symm.trans h.session

theorem does_sends {r r' : Relay} (h : r.Does r') : ∃ ms, r.server.Sends r'.server ms := by
  cases h with
  | same | work | finish => exact ⟨[], .none rfl⟩
  | rest aside => exact aside.sends.imp fun _ h => h.1
  | steer h => exact h.aside.sends.imp fun _ h => h.1.congr rfl rfl
  | forward => exact (RunHistory.sends_forwardNext _ _).imp fun _ h => h.1
  | conclude => exact ⟨_, RunHistory.sends_conclude _ _⟩
  | take => exact ⟨_, (Server.sends_send _ _ _).congr rfl rfl⟩

theorem act_does {m : Relay.Move} (h : c.Kept) (hd : c.relay.Does (c.relay.act m)) :
    (c.act m).Kept ∧ ∀ l ls, c.runs = l :: ls → ∃ new, (c.act m).runs = (l ++ new) :: ls := by
  obtain ⟨relay, prelude, runs⟩ := c
  obtain ⟨ms, hsends⟩ := does_sends hd
  have hmessages := hsends.sent
  cases runs with
  | nil =>
    obtain ⟨hs, ht⟩ := h.unused rfl
    obtain ⟨hs', ht', haside⟩ := does_unused hd hs ht
    have hinactive : (relay.act m).server.isActive = false := by rw [Server.isActive, hs']; rfl
    have hact : act ⟨relay, prelude, []⟩ m =
        ⟨relay.act m, prelude ++ Happening.between relay.server (relay.act m).server, []⟩ := by
      simp [act, hinactive]
    rw [hact]
    refine ⟨⟨?_, by simp, by simp, fun _ => ⟨hs', ht'⟩, ?_⟩, by simp⟩
    · exact List.forall_mem_append.2 ⟨h.prelude, Happening.between_aside haside⟩
    · have hbefore := h.messages
      simp only [List.reverse_nil, List.flatten_nil, List.append_nil] at hbefore ⊢
      rw [messages_append, messages_between hsends, hbefore, hmessages]
  | cons l ls =>
    have hfollows : l.Follows relay := h.current l rfl
    have hact : act ⟨relay, prelude, l :: ls⟩ m = ⟨relay.act m, prelude,
        (l ++ Happening.between relay.server (relay.act m).server) :: ls⟩ := by
      have hactive := hfollows.isActive_of_does hd
      cases hr : (relay.act m).server.isActive with
      | false => simp [act, hr]
      | true => simp [act, hr, hactive hr]
    rw [hact]
    refine ⟨⟨h.prelude, h.past, ?_, by simp, ?_⟩, ?_⟩
    · rintro _ ⟨⟩
      exact hfollows.does hd
    · have hbefore := h.messages
      simp only [List.reverse_cons, List.flatten_append, List.flatten_singleton, messages_append]
        at hbefore ⊢
      rw [messages_between hsends, ← List.append_assoc, ← List.append_assoc, hmessages, ← hbefore,
        List.append_assoc (RunHistory.messages prelude)]
    · rintro _ _ ⟨⟩
      exact ⟨_, rfl⟩

theorem Kept.launch {m : Relay.Move} (h : c.Kept) (hl : c.relay.Launches (c.relay.act m)) :
    (c.act m).Kept := by
  obtain ⟨relay, prelude, runs⟩ := c
  obtain ⟨hfollows, hactive⟩ := RunHistory.follows_launches hl
  have hact : act ⟨relay, prelude, runs⟩ m = ⟨relay.act m, prelude,
      Happening.between relay.server (relay.act m).server :: runs⟩ := by
    have hinactive : relay.server.isActive = false := hl.inactive
    simp [act, hactive, hinactive]
  rw [hact]
  refine ⟨h.prelude, fun l hl' => ?_, ?_, by simp, ?_⟩
  · cases runs with
    | nil => cases hl'
    | cons l' ls =>
      rcases List.mem_cons.1 hl' with rfl | hl'
      · exact (h.current l rfl).concluded hl
      · exact h.past l hl'
  · rintro _ ⟨⟩
    exact hfollows
  · obtain ⟨limit, rules, job, haside⟩ := hl.begins
    obtain ⟨ms, hsends, -⟩ := haside.sends
    have hsends : relay.server.Sends (relay.act m).server ms := hsends.congr rfl rfl
    have hbefore := h.messages
    simp only [List.reverse_cons, List.flatten_append, List.flatten_singleton, messages_append]
      at hbefore ⊢
    rw [messages_between hsends, ← List.append_assoc, hbefore, hsends.sent]

theorem Kept.act (h : c.Kept) (m : Relay.Move) : (c.act m).Kept := by
  rcases c.relay.act_cases m with hd | ⟨-, hl⟩
  · exact (act_does h hd).1
  · exact h.launch hl

theorem Kept.acts (h : c.Kept) (ms : List Relay.Move) : (c.acts ms).Kept := by
  induction ms generalizing c with
  | nil => exact h
  | cons m ms ih => exact ih (h.act m)

theorem Kept.seen (h : c.Kept) : c.Seen where
  prelude := h.prelude
  past := h.past
  current l hl := (h.current l hl).seen
  messages := h.messages
  texts l hl := by
    obtain ⟨S, haccords, -⟩ := h.current l hl
    exact haccords.texts

theorem relay_acts (c : RelayHistory) (ms : List Relay.Move) :
    (c.acts ms).relay = c.relay.acts ms := by
  induction ms generalizing c with
  | nil => rfl
  | cons m ms ih =>
    have hact : (c.act m).relay = c.relay.act m := by
      unfold RelayHistory.act
      dsimp only
      split
      · rfl
      · split <;> rfl
    exact (ih _).trans (congrArg (Relay.acts · ms) hact)

theorem Kept.goes_on (h : c.Kept) {ms : List Relay.Move}
    (hms : ∀ m ∈ ms, ∀ fs message, m ≠ .handle fs message) {l : RunHistory} {ls : List RunHistory}
    (hruns : c.runs = l :: ls) : ∃ new, (c.acts ms).runs = (l ++ new) :: ls := by
  induction ms generalizing c l with
  | nil => exact ⟨[], by rw [List.append_nil]; exact hruns⟩
  | cons m ms ih =>
    obtain ⟨hm, hms⟩ := List.forall_mem_cons.1 hms
    rcases c.relay.act_cases m with hd | ⟨⟨fs, message, rfl⟩, -⟩
    · obtain ⟨new, hnew⟩ := (act_does h hd).2 l ls hruns
      obtain ⟨new', hnew'⟩ := ih (h.act m) hms hnew
      exact ⟨new ++ new', by rw [← List.append_assoc]; exact hnew'⟩
    · exact absurd rfl (hm fs message)

end RelayHistory

/-! A call to tell of the run leaves nothing to tell. -/

namespace Server

variable {s : Server}

theorem unsent?_flush (s : Server) : s.flush.unsent? = none := by
  rw [unsent?, session_flush]
  cases h : s.session with
  | none => rfl
  | some session =>
    rw [Option.bind_some, forwarded_flush h]
    exact Array.getElem?_size

theorem unsent?_tellAll (n : Nat) (h : s.unsent? = none) : (tellAll n s).unsent? = none := by
  induction n generalizing s with
  | zero => exact h
  | succ n ih =>
    obtain ⟨-, htell⟩ | ⟨session, session', e, hsession, hpoll, htell, -⟩ := Telling.step_polling s
    · rw [htell]
      exact h
    · rw [htell]
      refine ih ?_
      cases e with
      | terminated o => exact unsent?_flush (s.withSession session')
      | paused p =>
        have hconsole := (eventCount_withSession hsession hpoll).2
        rw [unsent?, hsession, Option.bind_some, ← hconsole] at h
        exact h

theorem unsent?_pump (s : Server) : s.pump.unsent? = none :=
  unsent?_tellAll _ s.unsent?_flush

theorem queue_of_polling (h : (Telling.polling.step s).1 = none) : s.queue = [] := by
  rw [queue]
  cases hS : s.session with
  | none => rfl
  | some S =>
    rw [Option.bind_some]
    rcases hevents : S.shared.events with _ | _ | ⟨e, rest⟩
    · rfl
    · rfl
    · cases e with
      | paused p | terminated o =>
        simp only [Telling.step, hS, Option.map_some, Session.poll, hevents, Session.receive] at h
        cases h

theorem queue_pump (hs : s.InBounds) : s.pump.queue = [] :=
  queue_of_polling (by rw [(Telling.leads_pump hs).2])

end Server

namespace RelayHistory

variable {c : RelayHistory}

theorem Kept.inBounds (h : c.Kept) : c.relay.server.InBounds := by
  obtain ⟨relay, prelude, runs⟩ := c
  intro S hS
  cases runs with
  | nil => cases (h.unused rfl).1.symm.trans hS
  | cons l ls =>
    obtain ⟨S', haccords, -⟩ := h.current l rfl
    obtain rfl : S' = S := Option.some.inj (haccords.session.symm.trans hS)
    exact haccords.bounds

/-- What the calls of a server that is in the middle of nothing come to. Undisturbed, telling of the
run adds to its history what is sent then, after which the client knows all; and a message that is
handled at once is among what the moves come to. -/
structure Served (c : RelayHistory) : Prop where
  pump : ∃ ms, (∀ m ∈ ms, m = Relay.Move.proceed) ∧
    ((c.act .pump).acts ms).relay = ⟨c.relay.server.pump, .idle⟩ ∧
    ∀ l ls, c.runs = l :: ls →
      ∃ more, ((c.act .pump).acts ms).runs = (l ++ more) :: ls ∧ RunHistory.Known (l ++ more)
  handle : ∀ fs patience m, ∃ ms, (∀ x ∈ ms, Relay.Move.IsInner x) ∧
    ((c.act (.handle fs m)).acts ms).relay = ⟨(c.relay.server.handle fs patience m).2, .idle⟩

theorem Kept.served (h : c.Kept) (hidle : c.relay.task = .idle) : c.Served := by
  have hrelay : c.relay = ⟨c.relay.server, .idle⟩ := by rw [← hidle]
  obtain ⟨⟨ms, hms, hpump⟩, hhandle⟩ := Relay.leads_call h.inBounds
  have hacts (m : Relay.Move) (ms : List Relay.Move) : (c.act m).acts ms = c.acts (m :: ms) := rfl
  have hresult : (c.acts (.pump :: ms)).relay = ⟨c.relay.server.pump, .idle⟩ := by
    rw [relay_acts, hrelay]
    exact hpump
  refine ⟨⟨ms, hms, hacts _ _ ▸ hresult, fun l ls hruns => ?_⟩, fun fs patience m => ?_⟩
  · have hquiet : ∀ m ∈ Relay.Move.pump :: ms, ∀ fs message, m ≠ .handle fs message :=
      List.forall_mem_cons.2 ⟨nofun, fun m hm => by rw [hms m hm]; exact nofun⟩
    obtain ⟨more, hmore⟩ := h.goes_on hquiet hruns
    have hfollows := (h.acts (.pump :: ms)).current (l ++ more) (by rw [hmore]; rfl)
    rw [hresult] at hfollows
    exact ⟨more, hacts _ _ ▸ hmore,
      hfollows.known (Server.unsent?_pump _) (Server.queue_pump h.inBounds) rfl⟩
  · obtain ⟨ms, hms, hcall⟩ := hhandle fs patience m
    refine ⟨ms, hms, ?_⟩
    rw [hacts, relay_acts, hrelay]
    exact hcall

/-- However the run moves before, between and in the middle of the calls of a server, its client
sees each run whole and in order, and a call to tell of the run leaves nothing to tell. -/
theorem runs_seen (settings : Settings) (ms : List Relay.Move) :
    ((new settings).acts ms).Seen ∧
      (((new settings).acts ms).relay.task = .idle → ((new settings).acts ms).Served) := by
  have hkept := (kept_new settings).acts ms
  exact ⟨hkept.seen, hkept.served⟩

def launching (source : String) : List Relay.Move :=
  let arguments := Json.obj [("source", .str source), ("noDebug", .bool true)]
  let launch := ⟨1, "request", .request "launch" (some arguments)⟩
  .handle (fun _ => .error "no such file") launch :: List.replicate 60 .work ++
    .pump :: List.replicate 8 .proceed

def printed : RelayHistory :=
  (new .standard).acts (launching "print('a')\n")

theorem runs_seen_print : printed.Seen ∧ printed.Served ∧
    printed.runs.map (fun l => (l.texts, (l.announced "output").length,
      (l.announced "terminated").length, (l.announced "exited").length)) =
        [(["a\r\n"], 1, 1, 1)] := by
  have hidle : printed.relay.task.isIdle = true := by decide +kernel
  obtain ⟨hseen, hserved⟩ : printed.Seen ∧ (printed.relay.task = .idle → printed.Served) := by
    unfold printed
    exact runs_seen .standard (launching "print('a')\n")
  exact ⟨hseen, hserved (Task.eq_idle hidle), by decide +kernel⟩

end RelayHistory

end Stepwise

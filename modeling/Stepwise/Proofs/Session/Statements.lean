import Stepwise.Proofs.Code.Positions
import Stepwise.Proofs.Code.Simple
import Stepwise.Proofs.Evaluator.Blame
import Stepwise.Proofs.Session.Course

/-! How often a run that is stepped through pauses at a statement. Of all that an activation
executes for a simple root only the load of its first value can be paused at, and it is unless the
range of the root was offered last. -/

namespace Stepwise

open Code Source

theorem Hint.isSkip_of_usesUp {op : Opcode} (h : op.usesUp = true) :
    (Hint.standard op).isSkip = true := by
  cases op <;> first | rfl | cases h

theorem Hint.isSkip_of_loads {op : Opcode} (h : op.loads = true) :
    (Hint.standard op).isSkip = false := by
  cases op <;> first | rfl | cases h

structure Instant.In (r : Root) (unit : Chunk) (frame : FrameId) (x : Instant) : Prop where
  frame : x.activation.frame = frame
  chunk : x.activation.chunk = unit
  base : r.base ≤ x.activation.pc
  last : x.activation.pc ≤ r.last

/-- What a run comes to while an activation executes a root, as far as it does: the code of the root
from its base on, and nothing behind the use of its value. -/
structure Root.Executed (r : Root) (unit : Chunk) (frame : FrameId) (xs : List Instant) : Prop where
  starts : ∃ x rest, xs = x :: rest ∧ x.activation.frame = frame ∧ x.activation.chunk = unit ∧
    x.activation.pc = r.base
  ends : ∀ ys y zs, xs = ys ++ y :: zs → y.activation.frame = frame →
    y.activation.pc = r.last → zs = []

/-- The last of these instructions is the one that uses the value of the root up. -/
def Root.Used (r : Root) (frame : FrameId) (xs : List Instant) : Prop :=
  ∃ y ∈ xs.getLast?, y.activation.frame = frame ∧ y.activation.pc = r.last

theorem exists_until {α : Type} (P : α → Prop) (l : List α) : ∃ xs later, l = xs ++ later ∧
    (∀ ys y zs, xs = ys ++ y :: zs → P y → zs = []) ∧ (later = [] ∨ ∃ y ∈ xs.getLast?, P y) := by
  induction l with
  | nil => exact ⟨[], [], rfl, fun ys y zs he => by simp at he, .inl rfl⟩
  | cons a l ih =>
    by_cases ha : P a
    · exact ⟨[a], l, rfl, fun ys y zs he _ => by simp_all [List.cons_eq_append_iff],
        .inr ⟨a, rfl, ha⟩⟩
    · obtain ⟨xs, later, rfl, hends, hlast⟩ := ih
      refine ⟨a :: xs, later, rfl, fun ys y zs he hy => ?_, hlast.imp_right fun ⟨y, hy, hP⟩ =>
        ⟨y, by cases xs <;> simp_all, hP⟩⟩
      cases ys with
      | nil =>
        cases he
        exact (ha hy).elim
      | cons c ys => exact hends ys y zs (List.cons.inj he).2 hy

theorem Root.exists_executed {r : Root} (x : Instant) (rest : List Instant)
    (hpc : x.activation.pc = r.base) : ∃ xs later, x :: rest = xs ++ later ∧
      Root.Executed r x.activation.chunk x.activation.frame xs ∧
      (later = [] ∨ Root.Used r x.activation.frame xs) := by
  obtain ⟨xs, later, he, hends, hlast⟩ := exists_until
    (fun y : Instant => y.activation.frame = x.activation.frame ∧ y.activation.pc = r.last)
    (x :: rest)
  refine ⟨xs, later, he, ⟨?_, fun ys y zs he hframe hy => hends ys y zs he ⟨hframe, hy⟩⟩, hlast⟩
  cases xs with
  | nil =>
    obtain rfl | ⟨y, hy, -⟩ := hlast
    · cases he
    · cases hy
  | cons y xs =>
    cases he
    exact ⟨x, xs, rfl, rfl, rfl, hpc⟩

section Executed

variable {r : Root} {unit : Chunk} {frame : FrameId} {x y : Instant} {xs : List Instant}

theorem Instant.In.at (h : x.In r unit frame) (hr : Root.Stands unit r) (hs : r.isSimple = true) :
    ∃ i, Root.At unit r x.activation.pc i ∧ x.activation.op? = some i.op := by
  obtain ⟨i, hi⟩ := hr.at hs h.base h.last
  exact ⟨i, hi, by rw [Activation.op?, h.chunk, hi.code, Option.map_some]⟩

theorem Instant.In.next (h : x.In r unit frame) (hr : Root.Stands unit r)
    (hs : r.isSimple = true) (hlt : x.activation.pc < r.last)
    (hxy : x.activation.Precedes y.activation) :
    x.activation.pc < y.activation.pc ∧ y.In r unit frame := by
  obtain ⟨i, hi, -⟩ := h.at hr hs
  obtain ⟨j, hj, hleads⟩ := hxy.leads
  rw [h.chunk, hi.code] at hj
  cases hj
  obtain ⟨hpc, hlast⟩ := hi.leads hlt _ hleads
  exact ⟨hpc, hxy.frame.trans h.frame, hxy.chunk.trans h.chunk,
    Nat.le_trans h.base (Nat.le_of_lt hpc), hlast⟩

theorem exists_stretch (hr : Root.Stands unit r) (hs : r.isSimple = true) (h : x.In r unit frame)
    (hnext : (x :: xs).IsChain fun x y => x.activation.op? ≠ some .returnValue →
      x.activation.op? ≠ some .call → x.activation.Precedes y.activation)
    (hends : ∀ ys y zs, x :: xs = ys ++ y :: zs → y.activation.frame = frame →
      y.activation.pc = r.last → zs = []) :
    ∃ ys zs, xs = ys ++ zs ∧ (∀ y ∈ x :: ys, y.In r unit frame) ∧
      ((x :: ys).IsChain fun x y => x.activation.Precedes y.activation) ∧
      (zs ≠ [] → ∃ c ∈ (x :: ys).getLast?, c.activation.op? = some .call) := by
  induction xs generalizing x with
  | nil => exact ⟨[], [], rfl, List.forall_mem_singleton.2 h, .singleton x, fun h => (h rfl).elim⟩
  | cons y xs ih =>
    obtain ⟨hxy, hnext⟩ := List.isChain_cons_cons.1 hnext
    obtain ⟨i, hi, hop⟩ := h.at hr hs
    by_cases hcall : i.op = .call
    · exact ⟨[], y :: xs, rfl, List.forall_mem_singleton.2 h, .singleton x,
        fun _ => ⟨x, rfl, by rw [hop, hcall]⟩⟩
    · have hlt : x.activation.pc < r.last := Nat.lt_of_le_of_ne h.last fun he =>
        nomatch hends [] x (y :: xs) rfl h.frame he
      rw [hop] at hxy
      have hprecedes := hxy (fun hret => hi.returns hlt (Option.some.inj hret))
        fun hc => hcall (Option.some.inj hc)
      obtain ⟨ys, zs, rfl, hin, hchain, hlast⟩ := ih (h.next hr hs hlt hprecedes).2 hnext
        fun as a bs he => hends (x :: as) a bs (by rw [he]; rfl)
      refine ⟨y :: ys, zs, rfl, List.forall_mem_cons.2 ⟨h, hin⟩,
        List.isChain_cons_cons.2 ⟨hprecedes, hchain⟩, fun hne => ?_⟩
      obtain ⟨c, hc, hcop⟩ := hlast hne
      exact ⟨c, by rwa [List.getLast?_cons_cons], hcop⟩

theorem exists_load (hr : Root.Stands unit r)
    (hin : ∀ y ∈ x :: xs, y.In r unit frame) (hx : x.activation.pc ≤ r.load)
    (hchain : (x :: xs).IsChain fun x y => x.activation.Precedes y.activation) :
    (∀ y ∈ x :: xs, y.activation.pc < r.load) ∨ ∃ as y bs, x :: xs = as ++ y :: bs ∧
      (∀ a ∈ as, a.activation.pc < r.load) ∧ y.activation.pc = r.load := by
  induction xs generalizing x with
  | nil =>
    rcases Nat.lt_or_eq_of_le hx with hlt | he
    · exact .inl (List.forall_mem_singleton.2 hlt)
    · exact .inr ⟨[], x, [], rfl, List.forall_mem_nil _, he⟩
  | cons y xs ih =>
    rcases Nat.lt_or_eq_of_le hx with hlt | he
    · obtain ⟨hxy, hchain⟩ := List.isChain_cons_cons.1 hchain
      have h := hin x List.mem_cons_self
      obtain ⟨i, hi, hleads⟩ := hxy.leads
      rw [h.chunk, hr.begins.2.1 _ h.base hlt] at hi
      cases hi
      have hy : y.activation.pc ≤ r.load := by
        obtain hy | ⟨hj, -⟩ := hleads.cases
        · exact hy ▸ hlt
        · cases hj
      obtain hall | ⟨as, z, bs, he, has, hz⟩ :=
        ih (fun z hz => hin z (List.mem_cons_of_mem _ hz)) hy hchain
      · exact .inl (List.forall_mem_cons.2 ⟨hlt, hall⟩)
      · exact .inr ⟨x :: as, z, bs, by rw [he]; rfl, List.forall_mem_cons.2 ⟨hlt, has⟩, hz⟩
    · exact .inr ⟨[], x, y :: xs, rfl, List.forall_mem_nil _, he⟩

theorem eq_last_of_own {ys zs : List Instant} (hr : Root.Stands unit r) (hs : r.isSimple = true)
    (hin : ∀ y ∈ ys, y.In r unit frame) {c : Instant} (hc : c ∈ ys.getLast?)
    (hcall : c.activation.op? = some .call)
    (hown : ((ys ++ zs).filter (·.activation.frame = frame)).IsChain fun x y =>
      x.activation.op? ≠ some .returnValue → x.activation.Precedes y.activation)
    (hends : ∀ as y bs, ys ++ zs = as ++ y :: bs → y.activation.frame = frame →
      y.activation.pc = r.last → bs = []) :
    ∀ z ∈ zs, z.activation.frame = frame → z.In r unit frame ∧ z.activation.pc = r.last := by
  intro z hz hframe
  have hfilter : ys.filter (·.activation.frame = frame) = ys :=
    List.filter_eq_self.2 fun y hy => decide_eq_true (hin y hy).frame
  rw [List.filter_append, hfilter] at hown
  cases hzs : zs.filter (·.activation.frame = frame) with
  | nil => exact absurd (decide_eq_true hframe) (List.filter_eq_nil_iff.1 hzs z hz)
  | cons y l =>
    rw [hzs] at hown
    have hprecedes := (List.isChain_append.1 hown).2.2 c hc y rfl (by rw [hcall]; nofun)
    have hcin := hin c (List.mem_of_getLast? hc)
    obtain ⟨i, hi, hop⟩ := hcin.at hr hs
    obtain ⟨-, hstop⟩ := hi.calls (Option.some.inj (hop.symm.trans hcall))
    obtain ⟨hlt, hyin⟩ := hcin.next hr hs (by omega) hprecedes
    have hy : y.activation.pc = r.last := Nat.le_antisymm hyin.last (by omega)
    obtain ⟨as, bs, rfl, has, -, -⟩ := List.filter_eq_cons_iff.1 hzs
    obtain rfl := hends (ys ++ as) y bs (List.append_assoc ..).symm hyin.frame hy
    rcases List.mem_append.1 hz with hz | hz
    · exact absurd (decide_eq_true hframe) (has z hz)
    · rw [List.mem_singleton.1 hz]
      exact ⟨hyin, hy⟩

end Executed

section Offered

variable {t : Tracer} {x : Instant} {op : Opcode}

theorem Activation.Fetched.instrAt?_eq {a : Activation} (h : a.Fetched) :
    a.chunk.instrAt? a.lasti = a.chunk.code[a.pc]? := by
  simp [ChunkOf.instrAt?, h.lasti, instrWidth]

theorem Instant.offer?_of_skip (h : x.activation.Fetched) (hop : x.activation.op? = some op)
    (hskip : (t.rules op).isSkip = true) : x.offer? t = none := by
  obtain ⟨i, hi, rfl⟩ := Option.map_eq_some_iff.1 hop
  unfold Instant.offer?
  dsimp only
  rw [h.instrAt?_eq, hi, Option.bind_some, if_pos hskip, ite_self]

theorem Instant.exists_offer (h : x.activation.Fetched) (hop : x.activation.op? = some op)
    (hskip : (t.rules op).isSkip = false) (hfile : x.activation.chunk.file = t.file) {span : Span}
    (hp : x.activation.chunk.positions[x.activation.pc]? = some (.ofSpan span))
    (hpos : 1 ≤ span.line) (hle : span.line ≤ t.lineCount) :
    ∃ o, x.offer? t = some o ∧ o.range = .ofSpan span ∧ o.frame = x.activation.frame := by
  obtain ⟨i, hi, rfl⟩ := Option.map_eq_some_iff.1 hop
  have hline : x.activation.line = span.line :=
    h.line _ (by rw [ChunkOf.lineOf?, hp]; rfl)
  have hrange : Range.at? x.activation.chunk x.activation.lasti x.activation.line =
      some (.ofSpan span) := h.lasti ▸ Exception.Origin.shows_of_position hp
  refine ⟨⟨.ofSpan span, (t.rules i.op).loaded i x.activation.chunk
    (x.arena.lookup x.activation.frame), x.activation.frame, x.activation.chunk,
    x.activation.lasti, x.activation.line⟩, ?_, rfl, rfl⟩
  unfold Instant.offer?
  dsimp only
  rw [if_pos ⟨hfile, hline ▸ hpos, hline ▸ hle⟩, h.instrAt?_eq, hi, Option.bind_some, hskip,
    if_neg Bool.false_ne_true, hrange, Option.map_some]

end Offered

def Brief.offers (b : Brief) (xs : List Instant) : List Offer :=
  xs.filterMap (Instant.offer? b.tracer)

theorem Brief.offers_append (b : Brief) (xs ys : List Instant) :
    b.offers (xs ++ ys) = b.offers xs ++ b.offers ys :=
  List.filterMap_append

def Brief.lastRange (b : Brief) (xs : List Instant) : Option Range :=
  (b.offers xs).getLast?.map Offer.range

/-- These pauses are the activation's own of those that were made while it executed a root: none
before the first value is loaded, and then that of the load, unless its range was offered last. -/
inductive Root.Once (r : Root) (b : Brief) (frame : FrameId) (pre xs : List Instant)
    (own : List Pause) : Prop
  | marks (hxs : ∀ x ∈ xs, x.activation.frame = frame → x.activation.pc < r.load)
    (hown : own = [])
  | load {y : Instant} (hy : y ∈ xs) (hframe : y.activation.frame = frame)
    (hpc : y.activation.pc = r.load) {o : Offer} (ho : y.offer? b.tracer = some o)
    (hrange : o.range = .ofSpan r.header)
    (hown : own.map Pause.offer = if b.lastRange pre = some o.range then [] else [o])
    (hlast : r.value.isCall = false → b.lastRange (pre ++ xs) = some o.range)

namespace RecordedRun

/-- The run made these pauses while it came to some instructions, others being before them. -/
def Makes (f : RecordedRun) (b : Brief) (before during : List Instant) (made : List Pause) : Prop :=
  ∃ earlier later, f.pauses = earlier ++ made ++ later ∧
    earlier.map Pause.offer = firsts Offer.range (b.offers before) ∧
    (earlier ++ made).map Pause.offer = firsts Offer.range (b.offers (before ++ during))

/-- A program is stepped through with the standard rules. -/
structure Stepped (f : RecordedRun) (b : Brief) (w : Worker) : Prop where
  reached : f.Reached
  worker : f.system.session.worker = some (b, w)
  debug : b.job.mode = .debug
  unstopped : Note.Unstopped f.system.log
  standard : b.rules = Hint.standard

variable {f : RecordedRun} {b : Brief} {w : Worker}

namespace Stepped

variable {pre xs post : List Instant}

theorem course (h : f.Stepped b w) : w.Course f.shown b :=
  h.reached.onCourse b w h.worker h.unstopped.calm

theorem exists_made (h : f.Stepped b w) (hshown : f.shown = pre ++ xs ++ post) {k : List Offer}
    (hk : firsts Offer.range (b.offers (pre ++ xs)) = firsts Offer.range (b.offers pre) ++ k) :
    ∃ made, f.Makes b pre xs made ∧ made.map Pause.offer = k := by
  have hpauses : f.pauses.map Pause.offer = firsts Offer.range (b.offers f.shown) :=
    (h.reached.faithful b w h.worker h.debug h.unstopped).pauses
  obtain ⟨l, hl⟩ : ∃ l, firsts Offer.range (b.offers (pre ++ xs) ++ b.offers post) =
      firsts Offer.range (b.offers (pre ++ xs)) ++ l :=
    have ⟨l, hl, _⟩ := exists_firsts_append (b.offers (pre ++ xs)) (b.offers post)
    ⟨l, hl⟩
  rw [hshown, b.offers_append, hl, hk] at hpauses
  obtain ⟨during, later, he, hduring, -⟩ := List.map_eq_append_iff.1 hpauses
  obtain ⟨earlier, made, rfl, hearlier, hmade⟩ := List.map_eq_append_iff.1 hduring
  exact ⟨made, ⟨earlier, later, he, hearlier, hduring.trans hk.symm⟩, hmade⟩

section Unit

variable {tree body : List Stmt} {inFunction : Bool} {unit : Chunk} {x : Instant} {op : Opcode}

theorem offer?_of_skip (h : f.Stepped b w) (hx : x ∈ f.shown) (hop : x.activation.op? = some op)
    (hskip : (Hint.standard op).isSkip = true) : x.offer? b.tracer = none := by
  refine Instant.offer?_of_skip (h.course.fetched x hx) hop ?_
  rwa [Brief.tracer, Tracer.new, h.standard]

theorem exists_offer (h : f.Stepped b w) (ht : parse b.job.source = .ok tree)
    (hbody : IsBody tree body) (hc : Compiles b.job.name inFunction body unit) (hx : x ∈ f.shown)
    (hunit : x.activation.chunk = unit) (hop : x.activation.op? = some op)
    (hskip : (Hint.standard op).isSkip = false) {span : Span}
    (hp : unit.positions[x.activation.pc]? = some (.ofSpan span)) :
    ∃ o, x.offer? b.tracer = some o ∧ o.range = .ofSpan span ∧
      o.frame = x.activation.frame := by
  have hplaced := places_parse b.job.source
  rw [ht] at hplaced
  obtain ⟨i, hi, rfl⟩ := Option.map_eq_some_iff.1 hop
  have hfile : unit.file = b.job.name := by
    obtain ⟨_, _, _, _, _, _, rfl⟩ := hc
    rfl
  subst hunit
  have hm := hc.marks (hbody.placed hplaced) hi hp
  have hcount : b.tracer.lineCount = (Text.linesOf b.job.source).length := by
    simp [Brief.tracer, Tracer.new, Files.lineCount?, h.course.text]
  refine Instant.exists_offer (h.course.fetched x hx) hop ?_ hfile hp hm.start.line_pos ?_
  · rwa [Brief.tracer, Tracer.new, h.standard]
  · rw [hcount]
    exact hm.line_le

/-- What a run comes to while a root is executed: first the activation itself, which takes the marks
and then the load, and then, if it calls, what is called and the use of the value. -/
structure Stretch (f : RecordedRun) (r : Root) (unit : Chunk) (frame : FrameId)
    (ys zs : List Instant) :
    Prop where
  inside : ∀ y ∈ ys, y ∈ f.shown ∧ y.In r unit frame
  load : (∀ y ∈ ys, y.activation.pc < r.load) ∨ ∃ as y bs, ys = as ++ y :: bs ∧
    (∀ a ∈ as, a.activation.pc < r.load) ∧ y.activation.pc = r.load
  called : zs ≠ [] → ∃ c ∈ ys, c.activation.op? = some .call
  behind : ∀ z ∈ zs, z ∈ f.shown ∧ (z.activation.frame = frame →
    z.In r unit frame ∧ z.activation.pc = r.last)

theorem exists_parts (h : f.Stepped b w) {r : Root} (hr : Root.Stands unit r)
    (hs : r.isSimple = true) {frame : FrameId} (hshown : f.shown = pre ++ xs ++ post)
    (he : Root.Executed r unit frame xs) :
    ∃ ys zs, xs = ys ++ zs ∧ Stretch f r unit frame ys zs := by
  have hmem : ∀ y ∈ xs, y ∈ f.shown := fun y hy => by
    rw [hshown]
    exact List.mem_append_left _ (List.mem_append_right _ hy)
  have hnext := h.course.next
  have hown := h.course.own frame
  rw [hshown] at hnext hown
  rw [List.filter_append, List.filter_append] at hown
  obtain ⟨x, rest, rfl, hframe, hchunk, hpc⟩ := he.starts
  have hbase : x.activation.pc ≤ r.load := hpc ▸ Nat.le_add_right _ _
  have hx : x.In r unit frame :=
    ⟨hframe, hchunk, Nat.le_of_eq hpc.symm, Nat.le_trans hbase (Nat.le_of_lt hr.begins.1)⟩
  obtain ⟨ys, zs, rfl, hin, hchain, hcalls⟩ := exists_stretch hr hs hx
    (List.isChain_append.1 (List.isChain_append.1 hnext).1).2.1 he.ends
  obtain ⟨hys, hzs⟩ := List.forall_mem_append.1 (List.cons_append ▸ hmem)
  refine ⟨x :: ys, zs, rfl, fun y hy => ⟨hys y hy, hin y hy⟩, exists_load hr hin hbase hchain,
    fun hne => ?_, fun z hz => ⟨hzs z hz, ?_⟩⟩
  · obtain ⟨c, hc, hcall⟩ := hcalls hne
    exact ⟨c, List.mem_of_getLast? hc, hcall⟩
  · obtain ⟨c, hc, hcall⟩ := hcalls (List.ne_nil_of_mem hz)
    exact eq_last_of_own hr hs hin hc hcall
      (List.isChain_append.1 (List.isChain_append.1 hown).1).2.1 he.ends z hz

section Parts

variable {r : Root} {frame : FrameId} {ys zs : List Instant}

theorem range_of_offer (h : f.Stepped b w) (ht : parse b.job.source = .ok tree)
    (hbody : IsBody tree body) (hc : Compiles b.job.name inFunction body unit)
    (hr : Root.Stands unit r) (hs : r.isSimple = true) (hp : Stretch f r unit frame ys zs) :
    ∀ o ∈ b.offers ys, o.range = .ofSpan r.header ∧ o.frame = frame := by
  intro o ho
  obtain ⟨y, hy, ho⟩ := List.mem_filterMap.1 ho
  obtain ⟨hy, hin⟩ := hp.inside y hy
  obtain ⟨i, hi, hop⟩ := hin.at hr hs
  cases hskip : (Hint.standard i.op).isSkip with
  | true => cases (h.offer?_of_skip hy hop hskip).symm.trans ho
  | false =>
    obtain ⟨o', ho', hrange, hframe⟩ :=
      h.exists_offer ht hbody hc hy hin.chunk hop hskip hi.position
    cases ho.symm.trans ho'
    exact ⟨hrange, hframe.trans hin.frame⟩

theorem frame_ne_of_offer (h : f.Stepped b w) (hr : Root.Stands unit r) (hs : r.isSimple = true)
    (hp : Stretch f r unit frame ys zs) : ∀ o ∈ b.offers zs, o.frame ≠ frame := by
  intro o ho hframe
  obtain ⟨z, hz, ho⟩ := List.mem_filterMap.1 ho
  obtain ⟨hshown, hlast⟩ := hp.behind z hz
  rw [Tracer.eq_of_offer? ho] at hframe
  obtain ⟨hin, hpc⟩ := hlast hframe
  obtain ⟨i, hi, hop⟩ := hin.at hr hs
  cases (h.offer?_of_skip hshown hop (Hint.isSkip_of_usesUp (hi.uses hpc))).symm.trans ho

theorem op?_of_lt_load (hr : Root.Stands unit r) {y : Instant} (hin : y.In r unit frame)
    (hlt : y.activation.pc < r.load) : y.activation.op? = some .pushNull := by
  rw [Activation.op?, hin.chunk, hr.begins.2.1 _ hin.base hlt, Option.map_some]

theorem offers_marks (h : f.Stepped b w) (hr : Root.Stands unit r) {as : List Instant}
    (has : ∀ a ∈ as, a ∈ f.shown ∧ a.In r unit frame)
    (hlt : ∀ a ∈ as, a.activation.pc < r.load) : b.offers as = [] :=
  List.filterMap_eq_nil_iff.2 fun a ha =>
    h.offer?_of_skip (has a ha).1 (op?_of_lt_load hr (has a ha).2 (hlt a ha)) rfl

theorem exists_first_offer (h : f.Stepped b w) (ht : parse b.job.source = .ok tree)
    (hbody : IsBody tree body) (hc : Compiles b.job.name inFunction body unit)
    (hr : Root.Stands unit r) (hs : r.isSimple = true) (hp : Stretch f r unit frame ys zs) :
    (∀ y ∈ ys, y.activation.pc < r.load) ∧ b.offers ys = [] ∨
      ∃ y ∈ ys, y.activation.pc = r.load ∧ ∃ o os, y.offer? b.tracer = some o ∧
        b.offers ys = o :: os := by
  obtain hmarks | ⟨as, y, bs, rfl, has, hy⟩ := hp.load
  · exact .inl ⟨hmarks, h.offers_marks hr hp.inside hmarks⟩
  · obtain ⟨hinas, hinbs⟩ := List.forall_mem_append.1 hp.inside
    obtain ⟨hshown, hin⟩ := hinbs y List.mem_cons_self
    obtain ⟨i, hi, hop⟩ := hin.at hr hs
    obtain ⟨j, hj, hloads⟩ := hr.begins.2.2
    obtain rfl : j = i := Option.some.inj (hj.symm.trans (hy ▸ hi.code))
    obtain ⟨o, ho, -⟩ := h.exists_offer ht hbody hc hshown hin.chunk hop
      (Hint.isSkip_of_loads hloads) hi.position
    refine .inr ⟨y, List.mem_append_right as List.mem_cons_self, hy, o, b.offers bs, ho, ?_⟩
    rw [b.offers_append, h.offers_marks hr hinas has, List.nil_append]
    exact List.filterMap_cons_some ho

end Parts

theorem map_offer_filter {frame : FrameId} {l k : List Offer} {P : Offer → Bool} {made : List Pause}
    (hl : ∀ o ∈ l, o.frame = frame) (hk : ∀ o ∈ k, o.frame ≠ frame)
    (hmade : made.map Pause.offer = (l.head?.filter P).toList ++ k) :
    (made.filter (·.offer.frame = frame)).map Pause.offer = (l.head?.filter P).toList := by
  have hfilter : (made.filter (·.offer.frame = frame)).map Pause.offer =
      (made.map Pause.offer).filter (·.frame = frame) := by
    rw [List.filter_map]
    rfl
  have hforeign : k.filter (·.frame = frame) = [] :=
    List.filter_eq_nil_iff.2 fun o ho => by simpa using hk o ho
  rw [hfilter, hmade, List.filter_append, hforeign, List.append_nil]
  refine List.filter_eq_self.2 fun o ho => decide_eq_true (hl o ?_)
  exact List.mem_of_head? (Option.filter_eq_some_iff.1 (Option.mem_toList.1 ho)).1

/-- However a simple root is executed, its activation pauses at the load of the first value alone,
and there only if the range of the root was not offered last. -/
theorem executed (h : f.Stepped b w) (ht : parse b.job.source = .ok tree)
    (hbody : IsBody tree body) (hc : Compiles b.job.name inFunction body unit) {r : Root}
    (hr : r ∈ Stmt.allRoots body 0) (hs : r.isSimple = true) {frame : FrameId}
    (hshown : f.shown = pre ++ xs ++ post) (he : Root.Executed r unit frame xs) :
    ∃ made, f.Makes b pre xs made ∧
      Root.Once r b frame pre xs (made.filter (·.offer.frame = frame)) := by
  have hstands := hc.stands r hr
  obtain ⟨ys, zs, rfl, hp⟩ := h.exists_parts hstands hs hshown he
  have hranges := h.range_of_offer ht hbody hc hstands hs hp
  have hforeign := h.frame_ne_of_offer hstands hs hp
  have hfirst : firsts Offer.range (b.offers (pre ++ ys)) = firsts Offer.range (b.offers pre) ++
      ((b.offers ys).head?.filter fun _ => b.lastRange pre ≠ some (.ofSpan r.header)).toList := by
    rw [b.offers_append]
    exact firsts_append_of_forall fun o ho => (hranges o ho).1
  obtain ⟨k, hk, hsub⟩ : ∃ k, firsts Offer.range (b.offers (pre ++ ys) ++ b.offers zs) =
      firsts Offer.range (b.offers (pre ++ ys)) ++ k ∧ k.Sublist (b.offers zs) :=
    exists_firsts_append _ _
  rw [hfirst, ← b.offers_append, List.append_assoc, List.append_assoc] at hk
  obtain ⟨made, hmakes, hmade⟩ := h.exists_made hshown hk
  have hown := map_offer_filter (fun o ho => (hranges o ho).2)
    (fun o ho => hforeign o (hsub.subset ho)) hmade
  refine ⟨made, hmakes, ?_⟩
  obtain ⟨hmarks, hnone⟩ | ⟨y, hy, hpc, o, os, ho, hoffers⟩ :=
    h.exists_first_offer ht hbody hc hstands hs hp
  · rw [hnone] at hown
    refine .marks (List.forall_mem_append.2 ⟨fun y hy _ => hmarks y hy, fun z hz => ?_⟩)
      (List.map_eq_nil_iff.1 hown)
    obtain ⟨c, hc, hcall⟩ := hp.called (List.ne_nil_of_mem hz)
    cases (op?_of_lt_load hstands (hp.inside c hc).2 (hmarks c hc)).symm.trans hcall
  · obtain ⟨hrange, -⟩ := hranges o (hoffers ▸ List.mem_cons_self)
    refine .load (List.mem_append_left zs hy) (hp.inside y hy).2.frame hpc ho hrange ?_
      fun hcall => ?_
    · rw [hown, hoffers, hrange]
      by_cases hlast : b.lastRange pre = some (.ofSpan r.header) <;> simp [Option.filter, hlast]
    · have hzs : zs = [] := by
        by_contra hne
        obtain ⟨c, hc, hcop⟩ := hp.called hne
        obtain ⟨i, hi, hop⟩ := (hp.inside c hc).2.at hstands hs
        have hcalls := (hi.calls (Option.some.inj (hop.symm.trans hcop))).1
        rw [hcall] at hcalls
        cases hcalls
      have hne : b.offers ys ≠ [] := hoffers ▸ List.cons_ne_nil o os
      rw [hzs, List.append_nil, Brief.lastRange, b.offers_append,
        List.getLast?_append_of_ne_nil _ hne, List.getLast?_eq_some_getLast hne, Option.map_some,
        (hranges _ (List.getLast_mem hne)).1, hrange]

/-- The load of nothing at the end of a body pauses unless the range of the last statement was
offered last, and the return behind it does not pause. -/
theorem closes (h : f.Stepped b w) (ht : parse b.job.source = .ok tree) (hbody : IsBody tree body)
    (hc : Compiles b.job.name inFunction body unit) {span : Span} (hspan : span ∈ lastOfBody body)
    (hshown : f.shown = pre ++ x :: post) (hunit : x.activation.chunk = unit) :
    (x.activation.pc = Stmt.totalSize body → ∃ o, x.offer? b.tracer = some o ∧
      o.range = .ofSpan span ∧ ∃ made, f.Makes b pre [x] made ∧
        made.map Pause.offer = if b.lastRange pre = some (.ofSpan span) then [] else [o]) ∧
      (x.activation.pc = Stmt.totalSize body + 1 → x.offer? b.tracer = none) := by
  obtain ⟨t, hl⟩ := hc.closes
  obtain ⟨hload, hreturn⟩ := laid_cons.1 hl
  have hx : x ∈ f.shown := by
    rw [hshown]
    exact List.mem_append_right pre List.mem_cons_self
  constructor
  · intro hpc
    have hop : x.activation.op? = some .loadConst := by
      rw [Activation.op?, hunit, hpc, stands_singleton.1 hload.stands, Option.map_some]
    have hposition : unit.positions[x.activation.pc]? = some (.ofSpan span) := by
      rw [hpc, along_singleton.1 hload.marked, Option.mem_def.1 hspan]
      rfl
    obtain ⟨o, ho, hrange, -⟩ := h.exists_offer ht hbody hc hx hunit hop rfl hposition
    have hoffers : b.offers (pre ++ [x]) = b.offers pre ++ [o] := by
      rw [b.offers_append]
      exact congrArg (b.offers pre ++ ·) (List.filterMap_cons_some ho)
    have hk : firsts Offer.range (b.offers (pre ++ [x])) = firsts Offer.range (b.offers pre) ++
        if b.lastRange pre = some (.ofSpan span) then [] else [o] := by
      rw [hoffers, firsts_concat, hrange, Brief.lastRange]
      split
      · rw [List.append_nil]
      · rfl
    rw [List.append_cons] at hshown
    exact ⟨o, ho, hrange, h.exists_made hshown hk⟩
  · intro hpc
    have hop : x.activation.op? = some .returnValue := by
      rw [Activation.op?, hunit, hpc, stands_singleton.1 hreturn.stands, Option.map_some]
    exact h.offer?_of_skip hx hop rfl

end Unit

theorem exists_body (h : f.Stepped b w) {tree : List Stmt} (ht : parse b.job.source = .ok tree)
    {x : Instant} (hx : x ∈ f.shown) : ∃ inFunction body, IsBody tree body ∧
      Compiles b.job.name inFunction body x.activation.chunk := by
  obtain ⟨chunk, hcompile, hunit⟩ := h.course.units x hx
  obtain ⟨tree', inFunction, body, ht', hbody, hc⟩ := compiles_body hcompile hunit
  cases ht.symm.trans ht'
  exact ⟨inFunction, body, hbody, hc⟩

end Stepped

/-- A statement pauses once. Whenever an activation of a program that is stepped through comes to
the root of a statement or a test that has no operator or call except one that spans its header,
it pauses for it at the load of the first value alone, and not even there if the header was
offered last. The end of a body that is not empty pauses unless the range of its last statement
was offered last. -/
theorem pauses_once (h : f.Stepped b w) {tree : List Stmt} (ht : parse b.job.source = .ok tree) :
    ∀ pre x post, f.shown = pre ++ x :: post → ∃ inFunction body, IsBody tree body ∧
      Compiles b.job.name inFunction body x.activation.chunk ∧
      (∀ r ∈ Stmt.allRoots body 0, r.isSimple = true → x.activation.pc = r.base →
        ∃ xs later, x :: post = xs ++ later ∧
          Root.Executed r x.activation.chunk x.activation.frame xs ∧
          (later = [] ∨ Root.Used r x.activation.frame xs) ∧
          ∃ made, f.Makes b pre xs made ∧ Root.Once r b x.activation.frame pre xs
            (made.filter (·.offer.frame = x.activation.frame))) ∧
      ∀ span ∈ lastOfBody body,
        (x.activation.pc = Stmt.totalSize body → ∃ o, x.offer? b.tracer = some o ∧
          o.range = .ofSpan span ∧ ∃ made, f.Makes b pre [x] made ∧
            made.map Pause.offer = if b.lastRange pre = some (.ofSpan span) then [] else [o]) ∧
        (x.activation.pc = Stmt.totalSize body + 1 → x.offer? b.tracer = none) := by
  intro pre x post hshown
  have hx : x ∈ f.shown := by
    rw [hshown]
    exact List.mem_append_right pre List.mem_cons_self
  obtain ⟨inFunction, body, hbody, hc⟩ := h.exists_body ht hx
  refine ⟨inFunction, body, hbody, hc, fun r hr hs hpc => ?_,
    fun span hspan => h.closes ht hbody hc hspan hshown rfl⟩
  obtain ⟨xs, later, hsplit, he, hused⟩ := Root.exists_executed (r := r) x post hpc
  have hparts : f.shown = pre ++ xs ++ later := by
    rw [hshown, hsplit, List.append_assoc]
  exact ⟨xs, later, hsplit, he, hused, h.executed ht hbody hc hr hs hparts he⟩

def stepping (source : String) : RecordedRun :=
  ((new 10 Hint.standard).act (.start ⟨source, "<recorded>", .debug⟩)).acts
    (System.answering (List.replicate 4 .continueStepping))

def steppingBrief (source : String) : Brief :=
  ⟨⟨source, "<recorded>", .debug⟩, .insert .empty "<recorded>" source, Hint.standard, 10⟩

theorem stepped_stepping {source : String} (hu : Note.Unstopped (stepping source).system.log) :
    ∃ w, (stepping source).Stepped (steppingBrief source) w := by
  have hsystem : (stepping source).system =
      (System.launched 10 Hint.standard ⟨source, "<recorded>", .debug⟩).acts
        (System.answering (List.replicate 4 .continueStepping)) := by
    rw [stepping, system_acts, system_act]
    rfl
  obtain ⟨w, hw⟩ := System.worker_acts
    (System.worker_launched 10 Hint.standard ⟨source, "<recorded>", .debug⟩) fun job =>
    System.start_notMem_answering job (List.replicate 4 .continueStepping)
  exact ⟨w, ((reached_new 10 Hint.standard).act _).acts _, hsystem ▸ hw, rfl, hu, rfl⟩

def printing : String :=
  "x = 1\nprint(x)\n"

theorem pauses_once_printing : ∃ w tree r x post,
    (stepping printing).Stepped (steppingBrief printing) w ∧ parse printing = .ok tree ∧
      r ∈ Stmt.allRoots tree 0 ∧ r.isSimple = true ∧ x.activation.pc = r.base ∧
      (stepping printing).shown = (stepping printing).shown.take 2 ++ x :: post ∧
      (∃ xs made,
        (stepping printing).Makes (steppingBrief printing) ((stepping printing).shown.take 2) xs
          made ∧
        (made.filter (·.offer.frame = x.activation.frame)).map Pause.highlight =
          [.columns 2 1 2 9]) ∧
      (stepping printing).taken.map Pause.highlight = [.columns 1 1 1 6, .columns 2 1 2 9] := by
  have hu : Note.Unstopped (stepping printing).system.log :=
    Note.unstopped_of_all (by decide +kernel)
  obtain ⟨w, h⟩ := stepped_stepping hu
  have hparse : (parse printing).toOption.any (fun tree => (Stmt.allBodies tree).isEmpty &&
      ((Stmt.allRoots tree 0)[1]?.any fun r => r.isSimple &&
        (r.base, r.load, r.last, r.header) = (2, 3, 6, ⟨2, 0, 2, 8⟩))) = true := by
    decide +kernel
  have hinstants : ((stepping printing).shown[2]?.any fun x => x.activation.pc = 2 &&
      ((stepping printing).shown.drop 3).any fun y =>
        y.activation.frame = x.activation.frame && y.activation.pc = 6) = true := by
    decide +kernel
  have hlast : (steppingBrief printing).lastRange ((stepping printing).shown.take 2) =
      some (.columns 1 1 1 6) := by
    decide +kernel
  obtain ⟨tree, ht, hshape⟩ := exists_of_any_toOption hparse
  obtain ⟨hnone, hroot⟩ := Bool.and_eq_true_iff.1 hshape
  obtain ⟨r, hr, hroot⟩ := (Option.any_eq_true _ _).1 hroot
  obtain ⟨hsimple, hplaces⟩ := Bool.and_eq_true_iff.1 hroot
  obtain ⟨hbase, hload, hused, hheader⟩ := by
    simpa only [decide_eq_true_eq, Prod.mk.injEq] using hplaces
  obtain ⟨x, hx, hinstants⟩ := (Option.any_eq_true _ _).1 hinstants
  obtain ⟨hpc, hlater⟩ := Bool.and_eq_true_iff.1 hinstants
  obtain ⟨y, hy, hlater⟩ := List.any_eq_true.1 hlater
  obtain ⟨hframe, hypc⟩ := by simpa only [Bool.and_eq_true, decide_eq_true_eq] using hlater
  have hpc : x.activation.pc = r.base := (of_decide_eq_true hpc).trans hbase.symm
  have hmem : r ∈ Stmt.allRoots tree 0 := List.mem_of_getElem? hr
  obtain ⟨hlt, hx⟩ := List.getElem?_eq_some_iff.1 hx
  have hshown : (stepping printing).shown = (stepping printing).shown.take 2 ++
      x :: (stepping printing).shown.drop 3 := by
    rw [← hx, ← List.drop_eq_getElem_cons hlt, List.take_append_drop]
  have hbodies : ∀ body, IsBody tree body → body = tree := fun body hbody => by
    induction hbody with
    | self => rfl
    | nested _ hi ih =>
      rw [ih, List.isEmpty_iff.1 hnone] at hi
      cases hi
  obtain ⟨inFunction, body, hbody, -, hroots, -⟩ := pauses_once h ht _ x _ hshown
  obtain rfl := hbodies body hbody
  obtain ⟨xs, later, hsplit, -, hends, made, hmakes, honce⟩ := hroots r hmem hsimple hpc
  refine ⟨w, body, r, x, _, h, ht, hmem, hsimple, hpc, hshown, ⟨xs, made, hmakes, ?_⟩,
    by decide +kernel⟩
  cases honce with
  | marks hxs hown =>
    obtain ⟨z, hz, hzframe, hzpc⟩ : ∃ z ∈ xs, z.activation.frame = x.activation.frame ∧
        z.activation.pc = r.last := by
      obtain rfl | ⟨z, hz, hzframe, hzpc⟩ := hends
      · rw [List.append_nil] at hsplit
        exact ⟨y, hsplit ▸ List.mem_cons_of_mem x hy, hframe, hypc.trans hused.symm⟩
      · exact ⟨z, List.mem_of_getLast? hz, hzframe, hzpc⟩
    have := hxs z hz hzframe
    omega
  | load _ _ _ _ hrange hown _ =>
    rw [hrange, hheader, hlast, if_neg (by decide)] at hown
    have hhighlights := congrArg (List.map Offer.range) hown
    rw [List.map_map, List.map_singleton, hrange, hheader] at hhighlights
    exact hhighlights

/-- A sum that is assigned. The program is this one statement, and pauses three times in its only
activation: at the load of the first operand, at the operator, and at its end. -/
theorem pauses_thrice_sum :
    (parse "x = 1 + 2\n").toOption.map (fun tree =>
      ((Stmt.allRoots tree 0).map fun r => (r.base, r.last), Stmt.totalSize tree)) =
        some ([(0, 3)], 4) ∧
      (stepping "x = 1 + 2\n").taken.map (fun p => (p.highlight, p.snapshot.lasti)) =
        [(.columns 1 1 1 10, 0 * instrWidth), (.columns 1 5 1 10, 2 * instrWidth),
          (.columns 1 1 1 10, 4 * instrWidth)] ∧
      ((stepping "x = 1 + 2\n").taken.map fun p => p.snapshot.frame).dedup.length = 1 := by
  decide +kernel

end RecordedRun

end Stepwise

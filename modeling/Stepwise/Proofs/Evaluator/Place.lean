import Stepwise.Machine.Step
import Stepwise.Proofs.Evaluator.Matching
import Stepwise.Proofs.Machine.Quiet

/-! The state of a run inside one activation, as the evaluator sees it: the activation, the
scopes and the number of the next function object match a store, and the frames that were there
before the activation are as they were. -/

namespace Stepwise.Evaluator

variable {σ : Type}

structure Place where
  frame : FrameId
  chunk : Chunk
  callers : List Activation
  limit : Nat
  outer : Arena
  fresh : ∀ j, outer.isLive j = true → j.index ≠ frame.index

def LocalsMatch (f : Frame) : Option Names → Prop
  | none => f.chunk.isModule = true
  | some names => f.chunk.isModule = false ∧ NamesMatch f.locals names

/-- A machine and a store between activations. -/
structure Agrees (s : Store σ) (m : Machine) : Prop where
  sound : m.arena.Sound
  globals : NamesMatch m.arena.globals s.globals
  builtins : m.arena.builtins = builtinScope
  nextIdent : m.nextIdent = s.nextIdent
  untraced : m.tracing = false

structure Held (p : Place) (s : Store σ) (m : Machine) : Prop extends Agrees s m where
  frame : ∃ f, m.arena.Holds p.frame f ∧ LocalsMatch f s.locals
  outer : ∀ j, p.outer.isLive j = true → m.arena.slot? j = p.outer.slot? j
  limit : m.recursionLimit = p.limit
  depth : m.depth = p.callers.length + 1

structure Stays (p : Place) (s : Store σ) (r : Run) : Prop where
  frame : r.current.frame = p.frame
  chunk : r.current.chunk = p.chunk
  callers : r.callers = p.callers
  held : Held p s r.machine

structure Poised (p : Place) (pc : Nat) (stack : List Value) (s : Store σ) (r : Run) : Prop
    extends Stays p s r where
  pc : r.current.pc = pc
  stack : r.current.stack = stack

structure Ready (p : Place) (pc : Nat) (stack : List Value) (s : Store σ) (r : Run) : Prop
    extends Poised p pc stack s r where
  phase : r.phase = .fetch

structure Leaving (p : Place) (o : Object) (s : Store σ) (r : Run) : Prop extends Stays p s r where
  phase : ∃ v, Matches v o ∧ r.phase = .leave (.ok v)

structure Failing (c : Host.Console σ) (p : Place) (u : Stop) (s : Store σ) (r : Run) : Prop
    extends Stays p s r where
  phase : ∃ e, Stop.ofUnwind e = u ∧ c.Fails e ∧ r.phase = .leave (.error e)

namespace Held

variable {p : Place} {s : Store σ} {m : Machine}

theorem setPosition (h : Held p s m) (lasti line : Nat) :
    Held p s { m with arena := m.arena.setPosition p.frame lasti line } where
  sound := Arena.sound_modifyFrame h.sound _ _
  frame := by
    obtain ⟨f, hf, hl⟩ := h.frame
    refine ⟨_, hf.setPosition lasti line, ?_⟩
    cases hs : s.locals <;> rw [hs] at hl <;> exact hl
  outer j hj := (Arena.slot?_modifyFrame_of_ne (p.fresh j hj)).trans (h.outer j hj)
  globals := by simpa [Arena.setPosition] using h.globals
  builtins := by simpa [Arena.setPosition] using h.builtins
  nextIdent := h.nextIdent
  limit := h.limit
  depth := h.depth
  untraced := h.untraced

theorem withConsole (h : Held p s m) (w : σ) : Held p (s.withConsole w) m :=
  ⟨⟨h.sound, h.globals, h.builtins, h.nextIdent, h.untraced⟩, h.frame, h.outer, h.limit,
    h.depth⟩

theorem lookup (h : Held p s m) (name : String) :
    Option.Rel Matches (m.arena.lookup p.frame name) (s.lookup name) := by
  obtain ⟨f, hf, hl⟩ := h.frame
  rw [hf.lookup, h.builtins, Store.lookup]
  refine rel_or ?_ (rel_builtin name)
  cases hs : s.locals with
  | none =>
    rw [hs] at hl
    have hmod : f.chunk.isModule = true := hl
    rw [if_pos hmod, Option.or_self]
    exact h.globals name
  | some names =>
    rw [hs] at hl
    rw [if_neg (by simp [hl.1])]
    exact rel_or (hl.2 name) (h.globals name)

theorem assign (h : Held p s m) (name : String) {v : Value} {o : Object} (hv : Matches v o) :
    Held p (s.assign name o) { m with arena := m.arena.store p.frame name v } := by
  obtain ⟨f, hf, hl⟩ := h.frame
  unfold Store.assign
  split
  · next names hs =>
    rw [hs] at hl
    rw [hf.store, if_neg (by simp [hl.1])]
    exact {
      sound := Arena.sound_modifyFrame h.sound _ _
      frame := ⟨_, hf.modifyFrame _, hl.1, hl.2.insert name hv⟩
      outer := fun j hj => (Arena.slot?_modifyFrame_of_ne (p.fresh j hj)).trans (h.outer j hj)
      globals := by simpa using h.globals
      builtins := by simpa using h.builtins
      nextIdent := h.nextIdent
      limit := h.limit
      depth := h.depth
      untraced := h.untraced }
  · next hs =>
    have hmod : f.chunk.isModule = true := by rwa [hs] at hl
    rw [hf.store, if_pos hmod]
    exact {
      sound := ⟨h.sound.mem_free, h.sound.nodup⟩
      frame := ⟨f, hf, hl⟩
      outer := h.outer
      globals := h.globals.insert name hv
      builtins := h.builtins
      nextIdent := h.nextIdent
      limit := h.limit
      depth := h.depth
      untraced := h.untraced }

theorem countIdent (h : Held p s m) :
    Held p { s with nextIdent := s.nextIdent + 1 } { m with nextIdent := s.nextIdent + 1 } :=
  ⟨⟨h.sound, h.globals, h.builtins, rfl, h.untraced⟩, h.frame, h.outer, h.limit,
    h.depth⟩

end Held

def Place.entered (m : Machine) (ha : m.arena.Sound) (f : Frame) (callers : List Activation) :
    Place where
  frame := (m.arena.alloc f).1
  chunk := f.chunk
  callers
  limit := m.recursionLimit
  outer := m.arena
  fresh j hj := by
    obtain ⟨t, ht⟩ := Arena.isLive_iff.1 hj
    have h := Arena.slot?_eq_some_iff.1 ht
    exact Arena.index_alloc_fresh ha f h.1 h.2.2

theorem Agrees.enter {s : Store σ} {m : Machine} (h : Agrees s m) {f : Frame}
    {locals : Option Names} (hl : LocalsMatch f locals) {callers : List Activation} {depth : Nat}
    (hd : depth = callers.length + 1) :
    Held (.entered m h.sound f callers) (s.withLocals locals)
      { m with arena := (m.arena.alloc f).2, depth } where
  sound := Arena.sound_alloc h.sound f
  globals := by simpa [Store.withLocals] using h.globals
  builtins := by simpa using h.builtins
  nextIdent := h.nextIdent
  untraced := h.untraced
  frame := ⟨f, Arena.Holds.alloc h.sound f, hl⟩
  outer _ hj := Arena.slot?_alloc_of_live h.sound f hj
  limit := rfl
  depth := hd

theorem Held.agrees_release {p : Place} {s : Store σ} {m : Machine} (h : Held p s m)
    (locals : Option Names) :
    Agrees (s.withLocals locals) { m with arena := m.arena.release p.frame } where
  sound := Arena.sound_release h.sound _
  globals := by simpa [Store.withLocals] using h.globals
  builtins := by simpa using h.builtins
  nextIdent := h.nextIdent
  untraced := h.untraced

theorem Held.leave {p : Place} {s s' : Store σ} {m m' : Machine} (h : Held p s m) {f : Frame}
    {callers : List Activation} (hlength : callers.length = p.callers.length + 1)
    (h' : Held (.entered m h.sound f callers) s' m') :
    Held p (s'.withLocals s.locals)
      { m' with
        arena := m'.arena.release (Place.entered m h.sound f callers).frame
        depth := m'.depth - 1 } where
  sound := (h'.agrees_release s.locals).sound
  globals := (h'.agrees_release s.locals).globals
  builtins := (h'.agrees_release s.locals).builtins
  nextIdent := h'.nextIdent
  untraced := h'.untraced
  frame := by
    obtain ⟨g, hg, hl⟩ := h.frame
    refine ⟨g, ?_, hl⟩
    have hne := (Place.entered m h.sound f callers).fresh p.frame hg.isLive
    exact (Arena.slot?_release_of_ne hne).trans ((h'.outer p.frame hg.isLive).trans hg)
  outer j hj := by
    have hlive : m.arena.isLive j = true := by
      rw [Arena.isLive, h.outer j hj]
      exact hj
    have hne := (Place.entered m h.sound f callers).fresh j hlive
    exact (Arena.slot?_release_of_ne hne).trans ((h'.outer j hlive).trans (h.outer j hj))
  limit := h'.limit.trans h.limit
  depth := by rw [h'.depth, ← hlength]; rfl

end Stepwise.Evaluator

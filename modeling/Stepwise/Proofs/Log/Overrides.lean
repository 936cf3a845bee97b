import Mathlib.Data.List.Basic
import Stepwise.Proofs.Code.Layout
import Stepwise.Settings

/-! How far an override of a level reaches. A record is under the longest registered target with
which its own begins; five targets are registered whatever the settings say, so that an override
above one of them does not reach what is below it. -/

namespace Stepwise.Dictionary

variable {α : Type}

theorem mem_insertEntry_self (key : String) (a : α) (l : List (String × α)) :
    (key, a) ∈ insertEntry key a l := by
  induction l with
  | nil => exact List.mem_singleton.2 rfl
  | cons e rest ih =>
    rw [insertEntry]
    split
    · exact List.mem_cons_self
    · split
      · exact List.mem_cons_self
      · exact List.mem_cons_of_mem e ih

theorem mem_insertEntry_of_ne {key : String} {a : α} {f : String × α} {l : List (String × α)}
    (hf : f ∈ l) (hne : f.1 ≠ key) : f ∈ insertEntry key a l := by
  induction l with
  | nil => cases hf
  | cons e rest ih =>
    rw [insertEntry]
    split
    · next he =>
      rcases List.mem_cons.1 hf with rfl | hf
      · exact absurd he.symm hne
      · exact List.mem_cons_of_mem _ hf
    · split
      · exact List.mem_cons_of_mem _ hf
      · rcases List.mem_cons.1 hf with rfl | hf
        · exact List.mem_cons_self
        · exact List.mem_cons_of_mem e (ih hf)

theorem mem_entries_of_get? {d : Dictionary α} {key : String} {a : α} (h : d.get? key = some a) :
    (key, a) ∈ d.entries := by
  rw [get?] at h
  obtain ⟨e, he, rfl⟩ := Option.map_eq_some_iff.1 h
  have hkey : e.1 = key := by simpa using List.find?_some he
  exact hkey ▸ List.mem_of_find?_eq_some he

theorem mem_entries_ofList {es : List (String × α)} {P : String → α → Prop}
    (hP : ∀ k a b, P k a → P k b → a = b) (hes : ∀ e ∈ es, P e.1 e.2) {e : String × α} :
    e ∈ (ofList es).entries ↔ e ∈ es := by
  suffices h : ∀ d : Dictionary α, (∀ e ∈ d.entries, P e.1 e.2) →
      (e ∈ (es.foldl (fun d e => d.insert e.1 e.2) d).entries ↔ e ∈ d.entries ∨ e ∈ es) by
    simpa [ofList, empty] using h empty (by simp [empty])
  induction es with
  | nil => simp
  | cons f es ih =>
    intro d hd
    obtain ⟨hf, hes⟩ := List.forall_mem_cons.1 hes
    have hinsert : ∀ g, g ∈ (d.insert f.1 f.2).entries ↔ g = f ∨ g ∈ d.entries := fun g => by
      refine ⟨mem_insertEntry, fun h => ?_⟩
      by_cases hkey : g.1 = f.1
      · have hg : P g.1 g.2 := h.elim (fun h => h ▸ hf) (hd g)
        have : g = f := Prod.ext hkey (hP g.1 g.2 f.2 hg (hkey ▸ hf))
        exact this ▸ mem_insertEntry_self f.1 f.2 d.entries
      · exact mem_insertEntry_of_ne (h.resolve_left fun h => hkey (h ▸ rfl)) hkey
    have hall : ∀ g ∈ (d.insert f.1 f.2).entries, P g.1 g.2 := fun g hg =>
      ((hinsert g).1 hg).elim (fun h => h ▸ hf) (hd g)
    rw [List.foldl_cons, ih hes _ hall, hinsert, List.mem_cons]
    exact ⟨fun h => by tauto, fun h => by tauto⟩

end Stepwise.Dictionary

namespace Stepwise.Log

/-- Of these keys, the longest with which the target begins. -/
structure IsLongest (keys : List String) (target key : String) : Prop where
  mem : key ∈ keys
  isBeginning : key.toList <+: target.toList
  longest : ∀ other ∈ keys, other.toList <+: target.toList → other.length ≤ key.length

theorem IsLongest.unique {keys : List String} {target k₁ k₂ : String}
    (h₁ : IsLongest keys target k₁) (h₂ : IsLongest keys target k₂) : k₁ = k₂ := by
  have hlen : k₁.toList.length = k₂.toList.length := by
    rw [String.length_toList, String.length_toList]
    exact Nat.le_antisymm (h₂.longest k₁ h₁.mem h₁.isBeginning)
      (h₁.longest k₂ h₂.mem h₂.isBeginning)
  have h := List.prefix_of_prefix_length_le h₁.isBeginning h₂.isBeginning (Nat.le_of_eq hlen)
  exact String.toList_inj.1 (h.eq_of_length hlen)

namespace Filter

theorem foldl_longer (e : String × Level) (es : List (String × Level)) :
    es.foldl longer e ∈ e :: es ∧
      ∀ other ∈ e :: es, other.1.length ≤ (es.foldl longer e).1.length := by
  induction es generalizing e with
  | nil => simp
  | cons f es ih =>
    obtain ⟨hmem, hle⟩ := ih (longer e f)
    have hlonger : longer e f = e ∨ longer e f = f := by
      rw [longer]
      split
      · exact .inr rfl
      · exact .inl rfl
    have hbound : e.1.length ≤ (longer e f).1.length ∧ f.1.length ≤ (longer e f).1.length := by
      rw [longer]
      split <;> omega
    have hfirst := hle _ List.mem_cons_self
    refine ⟨?_, fun other hother => ?_⟩
    · rcases List.mem_cons.1 hmem with h | h
      · rw [List.foldl_cons, h]
        rcases hlonger with h | h <;> simp [h]
      · exact List.mem_cons_of_mem e (List.mem_cons_of_mem f h)
    · rw [List.foldl_cons]
      rcases List.mem_cons.1 hother with rfl | hother
      · omega
      · rcases List.mem_cons.1 hother with rfl | hother
        · omega
        · exact hle other (List.mem_cons_of_mem _ hother)

/-- What the settings rely on: a filter goes by the longest of its targets with which that of the
record begins. -/
def GoesByLongest (threshold : Filter → String → Level) : Prop :=
  ∀ (f : Filter) (target : String),
    (∃ key, IsLongest f.targets.keys target key ∧
      (key, threshold f target) ∈ f.targets.entries) ∨
    ((∀ key ∈ f.targets.keys, ¬key.toList <+: target.toList) ∧
      threshold f target = f.fallback)

theorem goesByLongest_threshold : GoesByLongest threshold := by
  intro f target
  have hmem : ∀ e, e ∈ f.targets.entries.filter (fun e => e.1.toList.isPrefixOf target.toList) ↔
      e ∈ f.targets.entries ∧ e.1.toList <+: target.toList := fun e => by
    rw [List.mem_filter, List.isPrefixOf_iff_prefix]
  have hkeys : ∀ key ∈ f.targets.keys, ∃ l, (key, l) ∈ f.targets.entries := fun key hkey => by
    obtain ⟨e, he, rfl⟩ := List.mem_map.1 hkey
    exact ⟨e.2, he⟩
  rw [threshold]
  split
  · next hnil =>
    refine .inr ⟨fun key hkey hbegins => ?_, rfl⟩
    obtain ⟨l, hl⟩ := hkeys key hkey
    have := (hmem (key, l)).2 ⟨hl, hbegins⟩
    rw [hnil] at this
    cases this
  · next e rest hcons =>
    rw [hcons] at hmem
    obtain ⟨hbest, hle⟩ := foldl_longer e rest
    obtain ⟨hentry, hbegins⟩ := (hmem _).1 hbest
    refine .inl ⟨(rest.foldl longer e).1, ⟨List.mem_map_of_mem hentry, hbegins, ?_⟩, hentry⟩
    intro other hother hprefix
    obtain ⟨l, hl⟩ := hkeys other hother
    exact hle (other, l) ((hmem _).2 ⟨hl, hprefix⟩)

end Filter

end Stepwise.Log

namespace Stepwise.LogSettings

open Log
open Code (exists_of_bind_eq_ok)

/-- Every level of these settings can be read. -/
structure Valid (s : LogSettings) : Prop where
  level : ∃ l, s.globalLevel = .ok l
  overrides : ∀ e ∈ s.overrides.entries, ∃ l, levelOf "log.targets" e.2 = .ok l

theorem exists_levelOf {setting text : String}
    (h : Settings.requireLevel setting text = .ok ()) : ∃ l, levelOf setting text = .ok l := by
  rw [Settings.requireLevel] at h
  cases hl : levelOf setting text with
  | ok l => exact ⟨l, rfl⟩
  | error e =>
    rw [hl] at h
    cases h

theorem valid_of_check {s : Settings} (h : s.check = .ok ()) : s.log.Valid := by
  obtain ⟨_, hlevel, h⟩ := exists_of_bind_eq_ok h
  obtain ⟨_, hentries, -⟩ := exists_of_bind_eq_ok h
  refine ⟨exists_levelOf hlevel, ?_⟩
  generalize s.log.overrides.entries = es at hentries
  induction es with
  | nil => exact fun e he => nomatch he
  | cons f es ih =>
    obtain ⟨_, hf, hes⟩ := exists_of_bind_eq_ok hentries
    exact List.forall_mem_cons.2 ⟨exists_levelOf hf, ih hes⟩

/-- The level for a target, by the longest of these keys with which it begins. -/
def Decides (s : LogSettings) (keys : List String) (target : String) (l : Level) : Prop :=
  (∃ key, IsLongest keys target key ∧ s.levelFor key = .ok l) ∨
    ((∀ key ∈ keys, ¬key.toList <+: target.toList) ∧ s.globalLevel = .ok l)

theorem Decides.unique {s : LogSettings} {keys : List String} {target : String} {l₁ l₂ : Level}
    (h₁ : s.Decides keys target l₁) (h₂ : s.Decides keys target l₂) : l₁ = l₂ := by
  rcases h₁ with ⟨k₁, hk₁, hl₁⟩ | ⟨hno₁, hl₁⟩ <;> rcases h₂ with ⟨k₂, hk₂, hl₂⟩ | ⟨hno₂, hl₂⟩
  · rw [hk₁.unique hk₂, hl₂] at hl₁
    exact (Except.ok.inj hl₁).symm
  · exact absurd hk₁.isBeginning (hno₂ k₁ hk₁.mem)
  · exact absurd hk₂.isBeginning (hno₁ k₂ hk₂.mem)
  · rw [hl₂] at hl₁
    exact (Except.ok.inj hl₁).symm

theorem Valid.exists_levelFor {s : LogSettings} (h : s.Valid) (target : String) :
    ∃ l, s.levelFor target = .ok l := by
  rw [levelFor]
  split
  · next text ht => exact h.overrides (target, text) (Dictionary.mem_entries_of_get? ht)
  · exact h.level

theorem exists_mapM_levelFor {s : LogSettings} (h : s.Valid) (keys : List String) :
    ∃ es : List (String × Level),
      (keys.mapM fun t => do return (t, ← s.levelFor t)) = Except.ok es ∧
      ∀ e, e ∈ es ↔ e.1 ∈ keys ∧ s.levelFor e.1 = .ok e.2 := by
  induction keys with
  | nil => exact ⟨[], rfl, by simp⟩
  | cons t keys ih =>
    obtain ⟨es, hes, hmem⟩ := ih
    obtain ⟨l, hl⟩ := h.exists_levelFor t
    refine ⟨(t, l) :: es, ?_, fun e => ?_⟩
    · rw [List.mapM_cons, hes, hl]
      rfl
    · rw [List.mem_cons, hmem, List.mem_cons]
      constructor
      · rintro (rfl | ⟨hkey, hlevel⟩)
        · exact ⟨.inl rfl, hl⟩
        · exact ⟨.inr hkey, hlevel⟩
      · rintro ⟨rfl | hkey, hlevel⟩
        · rw [hl] at hlevel
          exact .inl (Prod.ext rfl (Except.ok.inj hlevel).symm)
        · exact .inr ⟨hkey, hlevel⟩

theorem exists_filter {s : LogSettings} (h : s.Valid) :
    ∃ f, s.filter = .ok f ∧ s.globalLevel = .ok f.fallback ∧
      ∀ e, e ∈ f.targets.entries ↔ e.1 ∈ targets ++ s.overrides.keys ∧ s.levelFor e.1 = .ok e.2 := by
  obtain ⟨fallback, hfallback⟩ := h.level
  obtain ⟨es, hes, hmem⟩ := exists_mapM_levelFor h (targets ++ s.overrides.keys)
  refine ⟨⟨fallback, .ofList es⟩, ?_, hfallback, fun e => ?_⟩
  · change (s.globalLevel >>= fun fallback => ((targets ++ s.overrides.keys).mapM fun t => do
      return (t, ← s.levelFor t)) >>= fun entries =>
      pure (⟨fallback, .ofList entries⟩ : Filter)) = _
    rw [hfallback, hes]
    rfl
  · rw [← hmem]
    exact Dictionary.mem_entries_ofList (P := fun t l => s.levelFor t = .ok l)
      (fun k a b ha hb => Except.ok.inj (ha.symm.trans hb)) fun e he => ((hmem e).1 he).2

/-- Where filters go by the longest target, a record is let through exactly if it is at or above
the level for the longest key with which its target begins. The five targets are keys beside those
of the overrides: one without an override has the global level. -/
theorem enables_iff_longest {threshold : Filter → String → Level}
    (hlongest : Filter.GoesByLongest threshold) {s : LogSettings} (h : s.Valid) :
    ∃ f, s.filter = .ok f ∧ ∀ target level, (threshold f target).admits level = true ↔
      ∃ l, s.Decides (targets ++ s.overrides.keys) target l ∧ level.rank ≤ l.rank := by
  obtain ⟨f, hf, hfallback, hmem⟩ := exists_filter h
  have hkeys : ∀ key, key ∈ f.targets.keys ↔ key ∈ targets ++ s.overrides.keys := fun key => by
    refine ⟨fun hkey => ?_, fun hkey => ?_⟩
    · obtain ⟨e, he, rfl⟩ := List.mem_map.1 hkey
      exact ((hmem e).1 he).1
    · obtain ⟨l, hl⟩ := h.exists_levelFor key
      exact List.mem_map.2 ⟨(key, l), (hmem _).2 ⟨hkey, hl⟩, rfl⟩
  have hdecides (target : String) :
      s.Decides (targets ++ s.overrides.keys) target (threshold f target) := by
    rcases hlongest f target with ⟨key, hkey, hentry⟩ | ⟨hno, heq⟩
    · refine .inl ⟨key, ⟨(hkeys key).1 hkey.mem, hkey.isBeginning, fun other hother => ?_⟩,
        ((hmem _).1 hentry).2⟩
      exact hkey.longest other ((hkeys other).2 hother)
    · exact .inr ⟨fun key hkey => hno key ((hkeys key).2 hkey), heq ▸ hfallback⟩
  refine ⟨f, hf, fun target level => ?_⟩
  rw [Level.admits, decide_eq_true_iff]
  constructor
  · exact fun hle => ⟨_, hdecides target, hle⟩
  · rintro ⟨l, hl, hle⟩
    exact hl.unique (hdecides target) ▸ hle

def overriding (level target text : String) : Settings :=
  { Settings.standard with log :=
    { standard with level := level, overrides := .ofList [(target, text)] } }

theorem enables_iff_longest_gate :
    Filter.GoesByLongest Filter.threshold ∧
    (overriding "info" "step_debugger::gate" "trace").log.Valid ∧
    ∃ f, (overriding "info" "step_debugger::gate" "trace").log.filter = .ok f ∧
      ∀ target level, f.enables target level = true ↔
        ∃ l, (overriding "info" "step_debugger::gate" "trace").log.Decides
          (targets ++ (overriding "info" "step_debugger::gate" "trace").log.overrides.keys) target l ∧
          level.rank ≤ l.rank := by
  have h : (overriding "info" "step_debugger::gate" "trace").log.Valid :=
    valid_of_check (by decide +kernel)
  exact ⟨Filter.goesByLongest_threshold, h,
    enables_iff_longest Filter.goesByLongest_threshold h⟩

/-- The keys of the overrides alone do not decide: one for everything below `step_debugger` stops
at the five targets, which have the global level. -/
theorem override_stops_at_targets : ¬∀ s : LogSettings, s.Valid →
    ∃ f, s.filter = .ok f ∧ ∀ target level, f.enables target level = true ↔
      ∃ l, s.Decides s.overrides.keys target l ∧ level.rank ≤ l.rank := by
  intro h
  obtain ⟨f, hf, h⟩ := h (overriding "warn" "step_debugger" "trace").log
    (valid_of_check (by decide +kernel))
  have hrefused : ((overriding "warn" "step_debugger" "trace").log.filter.toOption.map
      (Filter.enables · "step_debugger::gate" .trace)) = some false := by decide +kernel
  have hpasses : f.enables "step_debugger::gate" .trace = true := by
    have hkeys : (overriding "warn" "step_debugger" "trace").log.overrides.keys =
        ["step_debugger"] := by decide +kernel
    refine (h _ _).2 ⟨.trace, .inl ⟨"step_debugger", ?_, by decide +kernel⟩, Nat.le_refl 5⟩
    rw [hkeys]
    exact ⟨List.mem_singleton_self _, by decide +kernel, by simp⟩
  rw [hf] at hrefused
  exact absurd (hpasses.symm.trans (Option.some.inj hrefused)) (by decide)

end Stepwise.LogSettings

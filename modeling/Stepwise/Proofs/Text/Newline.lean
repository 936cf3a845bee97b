import Mathlib.Data.List.Induction
import Stepwise.Proofs.Source.LineEnds

/-! The line ends of a terminal are a normal form. Putting a return before each line feed and
collapsing line ends are inverse to each other on texts whose line feeds all have a return, so a
normalized text is the one such text with the lines of the text it comes from. Two texts can be
normalized apart, as two writes are, just if no line end is parted between them. -/

namespace Stepwise.Text

open Source (withReturns)

variable {cs ds : List Char} {c : Char}

/-- A return ends the first text, and the line feed that it belongs to begins the second. -/
def PartsLineEnd (cs ds : List Char) : Prop :=
  cs.getLast? = some '\r' ∧ ds.head? = some '\n'

/-- Each line feed has a return before it. -/
def HasReturns (cs : List Char) : Prop :=
  ∀ gone post, cs = gone ++ '\n' :: post → gone.getLast? = some '\r'

namespace PartsLineEnd

theorem append_left (h : PartsLineEnd cs ds) (bs : List Char) : PartsLineEnd (bs ++ cs) ds :=
  ⟨by rw [List.getLast?_append, h.1, Option.some_or], h.2⟩

theorem not_singleton_iff :
    ¬PartsLineEnd [c] cs ↔ ∀ rest, c = '\r' → cs = '\n' :: rest → False := by
  constructor
  · rintro h rest rfl rfl
    exact h ⟨rfl, rfl⟩
  · rintro h ⟨hc, hcs⟩
    obtain ⟨rest, rfl⟩ := List.head?_eq_some_iff.1 hcs
    exact h rest (Option.some.inj hc) rfl

theorem of_singleton_append (h : PartsLineEnd [c] (cs ++ ds)) :
    PartsLineEnd [c] cs ∨ PartsLineEnd (c :: cs) ds := by
  cases cs with
  | nil => exact .inr h
  | cons d cs => exact .inl h

end PartsLineEnd

namespace HasReturns

theorem of_notMem (h : '\n' ∉ cs) : HasReturns cs := by
  rintro gone post rfl
  exact absurd (List.mem_append_right gone List.mem_cons_self) h

theorem append (hcs : HasReturns cs) (hds : HasReturns ds) : HasReturns (cs ++ ds) := by
  intro gone post h
  rcases Source.append_eq_append_cons h with ⟨rest, hgone, -⟩ | ⟨more, rfl, hmore⟩
  · exact hcs gone rest hgone
  · rw [List.getLast?_append, hds more post hmore, Option.some_or]

theorem of_append (h : HasReturns (cs ++ ds)) (hseam : ¬PartsLineEnd cs ds) : HasReturns ds := by
  rintro gone post rfl
  have hreturn := h (cs ++ gone) post (List.append_assoc ..).symm
  cases gone with
  | nil => exact absurd ⟨List.append_nil cs ▸ hreturn, rfl⟩ hseam
  | cons c gone => rwa [List.getLast?_append_of_ne_nil _ (List.cons_ne_nil c gone)] at hreturn

theorem head_ne (h : HasReturns (c :: cs)) : c ≠ '\n' := by
  rintro rfl
  exact absurd (h [] cs rfl) nofun

end HasReturns

theorem hasReturns_expandLineFeed (c : Char) : HasReturns (expandLineFeed c) := by
  by_cases hc : c = '\n'
  · subst hc
    intro gone post h
    match gone, h with
    | [], h => exact absurd (List.cons.inj h).1 (by decide)
    | [_], h => rw [← (List.cons.inj h).1, List.getLast?_singleton]
    | _ :: _ :: gone, h =>
      have hend : [] = gone ++ '\n' :: post := (List.cons.inj (List.cons.inj h).2).2
      exact absurd hend (by simp)
  · rw [expandLineFeed, if_neg hc]
    exact .of_notMem fun hm => hc (List.mem_singleton.1 hm).symm

theorem hasReturns_withReturns (cs : List Char) : HasReturns (withReturns cs) := by
  induction cs with
  | nil => exact .of_notMem List.not_mem_nil
  | cons c cs ih => exact (hasReturns_expandLineFeed c).append ih

section collapseLineEnds

theorem collapseLineEnds_return_newline (cs : List Char) :
    collapseLineEnds ('\r' :: '\n' :: cs) = '\n' :: collapseLineEnds cs := rfl

theorem collapseLineEnds_cons (h : ¬PartsLineEnd [c] cs) :
    collapseLineEnds (c :: cs) = c :: collapseLineEnds cs :=
  collapseLineEnds.eq_2 c cs (PartsLineEnd.not_singleton_iff.1 h)

/-- Each line feed takes away the one return that was put before it, and no return of the text. -/
theorem collapseLineEnds_withReturns (cs : List Char) :
    collapseLineEnds (withReturns cs) = cs := by
  induction cs with
  | nil => rfl
  | cons c cs ih =>
    by_cases hc : c = '\n'
    · subst hc
      rw [Source.withReturns_newline, collapseLineEnds_return_newline, ih]
    · have hseam : ¬PartsLineEnd [c] (withReturns cs) :=
        fun hp => Source.head?_withReturns_ne cs hp.2
      rw [Source.withReturns_cons hc, collapseLineEnds_cons hseam, ih]

theorem withReturns_collapseLineEnds (h : HasReturns cs) :
    withReturns (collapseLineEnds cs) = cs := by
  fun_induction collapseLineEnds cs with
  | case1 rest ih =>
    have hseam : ¬PartsLineEnd ['\r', '\n'] rest := fun hp => absurd hp.1 (by decide)
    rw [Source.withReturns_newline, ih (h.of_append hseam)]
  | case2 c rest hne ih =>
    have hseam : ¬PartsLineEnd [c] rest := PartsLineEnd.not_singleton_iff.2 hne
    rw [Source.withReturns_cons h.head_ne, ih (h.of_append hseam)]
  | case3 => rfl

theorem collapseLineEnds_append (h : ¬PartsLineEnd cs ds) :
    collapseLineEnds (cs ++ ds) = collapseLineEnds cs ++ collapseLineEnds ds := by
  fun_induction collapseLineEnds cs with
  | case1 rest ih =>
    rw [List.cons_append, List.cons_append, collapseLineEnds_return_newline,
      ih fun hp => h (hp.append_left ['\r', '\n']), List.cons_append]
  | case2 c rest hne ih =>
    have hseam : ¬PartsLineEnd [c] (rest ++ ds) := fun hp =>
      hp.of_singleton_append.elim (PartsLineEnd.not_singleton_iff.2 hne) h
    rw [List.cons_append, collapseLineEnds_cons hseam, ih fun hp => h (hp.append_left [c]),
      List.cons_append]
  | case3 => rfl

end collapseLineEnds

section normalized

theorem normalized_eq (cs : List Char) : normalized cs = withReturns (collapseLineEnds cs) := rfl

/-- There is one text that has a return before each line feed and the lines of a given text. -/
theorem eq_normalized_iff :
    ds = normalized cs ↔ HasReturns ds ∧ collapseLineEnds ds = collapseLineEnds cs := by
  constructor
  · rintro rfl
    exact ⟨hasReturns_withReturns _, collapseLineEnds_withReturns _⟩
  · rintro ⟨hreturns, hlines⟩
    rw [normalized_eq, ← hlines, withReturns_collapseLineEnds hreturns]

theorem hasReturns_normalized (cs : List Char) : HasReturns (normalized cs) :=
  (eq_normalized_iff.1 rfl).1

theorem normalized_eq_self_iff : normalized cs = cs ↔ HasReturns cs := by
  rw [eq_comm, eq_normalized_iff, and_iff_left rfl]

theorem normalized_append (h : ¬PartsLineEnd cs ds) :
    normalized (cs ++ ds) = normalized cs ++ normalized ds := by
  rw [normalized_eq, collapseLineEnds_append h, Source.withReturns_append, normalized_eq,
    normalized_eq]

/-- Normalized apart, a line end that is parted keeps its return and is given another one. -/
theorem PartsLineEnd.normalized_append (h : PartsLineEnd cs ds) :
    ∃ before after, normalized (cs ++ ds) = before ++ '\r' :: '\n' :: after ∧
      normalized cs ++ normalized ds = before ++ '\r' :: '\r' :: '\n' :: after := by
  obtain ⟨hcs, hds⟩ := h
  obtain ⟨before, rfl⟩ := List.getLast?_eq_some_iff.1 hcs
  obtain ⟨after, rfl⟩ := List.head?_eq_some_iff.1 hds
  have hbefore (rest : List Char) : ¬PartsLineEnd before ('\r' :: rest) :=
    fun h => absurd (Option.some.inj h.2) (by decide)
  refine ⟨normalized before, normalized after, ?_, ?_⟩
  · rw [List.append_assoc, List.singleton_append, Text.normalized_append (hbefore _)]
    rfl
  · rw [Text.normalized_append (hbefore []), List.append_assoc]
    rfl

example : normalized "a\r".toList ++ normalized "\nb".toList = "a\r\r\nb".toList := by decide

theorem normalized_append_iff :
    normalized (cs ++ ds) = normalized cs ++ normalized ds ↔ ¬PartsLineEnd cs ds := by
  refine ⟨fun h hparts => ?_, normalized_append⟩
  obtain ⟨before, after, hwhole, hapart⟩ := hparts.normalized_append
  rw [hwhole, hapart, List.append_cancel_left_eq] at h
  exact absurd (List.cons.inj (List.cons.inj h).2).1 (by decide)

/-- Several writes show what one write of it all would show, if none of them begins with the line
feed of a return that was the last to be written. -/
theorem normalized_flatten {texts : List (List Char)}
    (h : ∀ before text after, texts = before ++ text :: after →
      ¬PartsLineEnd before.flatten text) :
    normalized texts.flatten = (texts.map normalized).flatten := by
  induction texts using List.reverseRecOn with
  | nil => rfl
  | append_singleton texts text ih =>
    have hbefore := ih fun before text' after htexts =>
      h before text' (after ++ [text]) (by rw [htexts, List.append_assoc, List.cons_append])
    rw [List.flatten_concat, normalized_append (h texts text [] rfl), hbefore, List.map_append,
      List.map_singleton, List.flatten_concat]

end normalized

theorem toList_normalizeLineEnds (text : String) :
    (normalizeLineEnds text).toList = normalized text.toList :=
  String.toList_ofList

theorem hasReturns_paintError (text : String) : HasReturns (paintError text).toList := by
  have hbody := hasReturns_normalized text.toList
  have hend : HasReturns ['\r', '\n'] := hasReturns_expandLineFeed '\n'
  simp only [paintError, String.toList_append, String.toList_ofList]
  refine (HasReturns.append (.of_notMem (by decide)) ?_).append (.of_notMem (by decide))
  split
  · exact hbody
  · exact hbody.append hend

/-- Normalizing gives each line feed a return, has nothing to do a second time and keeps the lines,
and the parts of a text can be normalized apart just if no line end is parted. -/
theorem normalizeLineEnds_stable (t u : String) :
    HasReturns (normalizeLineEnds t).toList ∧
      normalizeLineEnds (normalizeLineEnds t) = normalizeLineEnds t ∧
      collapseLineEnds (normalizeLineEnds t).toList = collapseLineEnds t.toList ∧
      (normalizeLineEnds (t ++ u) = normalizeLineEnds t ++ normalizeLineEnds u ↔
        ¬PartsLineEnd t.toList u.toList) := by
  obtain ⟨hreturns, hlines⟩ := eq_normalized_iff.1 (toList_normalizeLineEnds t)
  refine ⟨hreturns, ?_, hlines, ?_⟩
  · rw [← String.toList_inj, toList_normalizeLineEnds, normalized_eq_self_iff]
    exact hreturns
  · rw [← String.toList_inj, String.toList_append, toList_normalizeLineEnds,
      toList_normalizeLineEnds, toList_normalizeLineEnds, String.toList_append,
      normalized_append_iff]

end Stepwise.Text

import Stepwise.Proofs.Code.Layout
import Stepwise.Proofs.Evaluator.Alike

/-! Which values of the machine stand for which objects of the evaluator, and which scopes for
which names. -/

namespace Stepwise.Dictionary

variable {α : Type}

theorem get?_foldl_insert {k : String} {a : α} (entries : List (String × α)) (d : Dictionary α)
    (h : (entries.foldl (fun d e => d.insert e.1 e.2) d).get? k = some a) :
    (k, a) ∈ entries ∨ d.get? k = some a := by
  induction entries generalizing d with
  | nil => exact .inr h
  | cons e entries ih =>
    rcases ih _ h with h | h
    · exact .inl (List.mem_cons_of_mem e h)
    · rw [get?_insert] at h
      split at h
      · next he =>
        cases h
        exact .inl (he ▸ List.mem_cons_self)
      · exact .inr h

theorem mem_of_get?_ofList {k : String} {a : α} {entries : List (String × α)}
    (h : (ofList entries).get? k = some a) : (k, a) ∈ entries :=
  (get?_foldl_insert entries empty h).resolve_right (by simp)

end Stepwise.Dictionary

namespace Stepwise.Evaluator

open Source
open Value (Alike IsPlain)

structure Definition.IsRead (d : Definition) : Prop where
  name : d.name ≠ Code.moduleName
  body : Stmt.AllProper d.body

/-- A function object of the machine stands for one that bears the same number and keeps the
definition that its code was made from. All other values stand for themselves. -/
inductive Matches : Value → Object → Prop
  | plain {v : Value} (h : v.IsPlain) : Matches v (.plain v)
  | function (n : Nat) {c : Chunk} {d : Definition} (file : String) (hd : d.IsRead)
    (hc : Code.ofFunction file d.name d.params d.header d.body = .ok c) :
    Matches (.function n c) (.function n d)

theorem name_ofFunction {file name : String} {params : List String} {header : Span}
    {body : List Stmt} {c : Chunk} (h : Code.ofFunction file name params header body = .ok c) :
    c.name = name ∧ c.params = params := by
  obtain ⟨r, -, h⟩ := Code.exists_of_bind_eq_ok h
  cases h
  exact ⟨rfl, rfl⟩

theorem Matches.alike {v : Value} {o : Object} (h : Matches v o) : Alike v o.view := by
  cases h with
  | plain => exact .same _
  | function n _ _ hc => exact .function n (name_ofFunction hc).1

theorem alike_views {vs : List Value} {os : List Object} (h : List.Forall₂ Matches vs os) :
    List.Forall₂ Alike vs (os.map Object.view) := by
  induction h with
  | nil => exact .nil
  | cons h _ ih => exact .cons h.alike ih

def NamesMatch (scope : Scope) (names : Names) : Prop :=
  ∀ k, Option.Rel Matches (scope.get? k) (names.get? k)

namespace NamesMatch

variable {scope : Scope} {names : Names}

theorem empty : NamesMatch .empty .empty :=
  fun _ => .none

theorem insert (h : NamesMatch scope names) (name : String) {v : Value} {o : Object}
    (hv : Matches v o) : NamesMatch (scope.insert name v) (names.insert name o) := by
  intro k
  rw [Dictionary.get?_insert, Dictionary.get?_insert]
  split
  · exact .some hv
  · exact h k

theorem ofList (params : List String) {vs : List Value} {os : List Object}
    (h : List.Forall₂ Matches vs os) :
    NamesMatch (.ofList (params.zip vs)) (.ofList (params.zip os)) := by
  suffices hs : ∀ (scope : Scope) (names : Names), NamesMatch scope names → NamesMatch
      ((params.zip vs).foldl (fun d e => d.insert e.1 e.2) scope)
      ((params.zip os).foldl (fun d e => d.insert e.1 e.2) names) from hs _ _ .empty
  induction h generalizing params with
  | nil =>
    intro scope names hs
    simpa using hs
  | cons hv _ ih =>
    intro scope names hs
    cases params with
    | nil => exact hs
    | cons p params => exact ih params _ _ (hs.insert p hv)

end NamesMatch

theorem isPlain_of_builtinScope {k : String} {v : Value} (h : builtinScope.get? k = some v) :
    v.IsPlain := by
  obtain ⟨b, -, hb⟩ := List.mem_map.1 (Dictionary.mem_of_get?_ofList h)
  cases hb
  trivial

/-- A look-up through three scopes gives what stands for what three look-ups by name give. -/
theorem rel_or {v v' : Option Value} {o o' : Option Object} (h : Option.Rel Matches v o)
    (h' : Option.Rel Matches v' o') : Option.Rel Matches (v.or v') (o.or o') := by
  cases h with
  | some h => exact .some h
  | none => exact h'

theorem rel_builtin (k : String) :
    Option.Rel Matches (builtinScope.get? k) ((builtinScope.get? k).map .plain) := by
  cases h : builtinScope.get? k with
  | none => exact .none
  | some v => exact .some (.plain (isPlain_of_builtinScope h))

end Stepwise.Evaluator

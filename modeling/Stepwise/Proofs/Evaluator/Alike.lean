import Mathlib.Data.List.Forall2
import Stepwise.Proofs.Evaluator.Basic

/-! Operators and built-in functions see of a function object its number and its name. Values
that differ in nothing else behave alike, and no operator gives a function object. -/

namespace Stepwise.Value

def IsPlain : Value → Prop
  | function _ _ | code _ _ => False
  | _ => True

inductive Alike : Value → Value → Prop
  | same (v : Value) : Alike v v
  | function (n : Nat) {c d : Chunk} (h : c.name = d.name) : Alike (function n c) (function n d)

namespace Alike

variable {v v' w w' : Value}

theorem typeName_eq (h : Alike v v') : v.typeName = v'.typeName := by
  cases h <;> rfl

theorem truthy_eq (h : Alike v v') : v.truthy = v'.truthy := by
  cases h <;> rfl

theorem text_eq (h : Alike v v') : v.text = v'.text := by
  cases h with
  | same => rfl
  | function n h => exact congrArg (fun name => "<function " ++ name ++ ">") h

theorem equal_eq (h : Alike v v') (k : Alike w w') : v.equal w = v'.equal w' := by
  cases h with
  | same =>
    cases k with
    | same => rfl
    | function n _ => cases v <;> rfl
  | function n _ =>
    cases k with
    | same => cases w <;> rfl
    | function m _ => rfl

theorem unary_eq (op : Source.UnaryOp) (h : Alike v v') : unary op v = unary op v' := by
  cases h with
  | same => rfl
  | function n _ => cases op <;> rfl

theorem arith_function_left (op : Source.Arith) (n : Nat) (c : Chunk) (w : Value) :
    arith op (.function n c) w = .error (.operands op.symbol "function" w.typeName) := by
  cases w <;> cases op <;> rfl

theorem arith_function_right (op : Source.Arith) (v : Value) (n : Nat) (c : Chunk) :
    arith op v (.function n c) = .error (.operands op.symbol v.typeName "function") := by
  cases v <;> cases op <;> rfl

theorem arith_eq (op : Source.Arith) (h : Alike v v') (k : Alike w w') :
    arith op v w = arith op v' w' := by
  cases h with
  | same =>
    cases k with
    | same => rfl
    | function m _ => rw [arith_function_right, arith_function_right]
  | function n _ => rw [arith_function_left, arith_function_left, k.typeName_eq]

theorem compare_eq (op : Source.Relation) (h : Alike v v') (k : Alike w w') :
    compare op v w = compare op v' w' := by
  have he := equal_eq h k
  cases h with
  | same =>
    cases k with
    | same => rfl
    | function m _ => cases op <;> simp only [compare, he] <;> cases v <;> rfl
  | function n _ =>
    cases op <;> simp only [compare, he]
    all_goals
      cases k with
      | same => cases w <;> rfl
      | function m _ => rfl

end Alike

theorem isPlain_ofInt {n : Int} {v : Value} (h : ofInt n = .ok v) : v.IsPlain := by
  unfold ofInt at h
  split at h <;> cases h
  trivial

theorem isPlain_intArith {op : Source.Arith} {x y : Int64} {v : Value}
    (h : intArith op x y = .ok v) : v.IsPlain := by
  cases op with
  | add | sub | mul => exact isPlain_ofInt h
  | div =>
    simp only [intArith] at h
    split at h <;> cases h
    trivial
  | floorDiv | mod =>
    simp only [intArith] at h
    split at h
    · cases h
    · split at h <;> cases h
      trivial

theorem isPlain_floatArith {op : Source.Arith} {x y : Float} {v : Value}
    (h : floatArith op x y = .ok v) : v.IsPlain := by
  cases op with
  | add | sub | mul =>
    cases h
    trivial
  | div | floorDiv | mod =>
    simp only [floatArith] at h
    split at h <;> cases h
    trivial

theorem isPlain_arith {op : Source.Arith} {v w x : Value} (h : arith op v w = .ok x) :
    x.IsPlain := by
  unfold arith at h
  split at h
  · exact isPlain_intArith h
  · split at h
    · exact isPlain_floatArith h
    · split at h
      · unfold joinStr at h
        split at h <;> cases h
        trivial
      · unfold repeatStr at h
        dsimp only at h
        split at h <;> cases h
        trivial
      · unfold repeatStr at h
        dsimp only at h
        split at h <;> cases h
        trivial
      · cases h

theorem isPlain_compare {op : Source.Relation} {v w x : Value} (h : compare op v w = .ok x) :
    x.IsPlain := by
  unfold compare at h
  repeat' split at h
  all_goals first
    | cases h; trivial
    | cases h

theorem isPlain_unary {op : Source.UnaryOp} {v x : Value} (h : unary op v = .ok x) :
    x.IsPlain := by
  cases op with
  | not =>
    cases h
    trivial
  | neg =>
    simp only [unary] at h
    split at h
    · cases h
      trivial
    · split at h
      · exact isPlain_ofInt h
      · cases h

theorem isPlain_ofLiteral (l : Source.Literal) : (ofLiteral l).IsPlain := by
  cases l <;> trivial

end Stepwise.Value

namespace Stepwise.Builtin

open Value (Alike IsPlain)

theorem toInteger_eq {v w : Value} (h : Alike v w) : toInteger v = toInteger w := by
  cases h <;> rfl

theorem length_eq {v w : Value} (h : Alike v w) : length v = length w := by
  cases h <;> rfl

theorem map_text_eq {vs ws : List Value} (h : List.Forall₂ Alike vs ws) :
    vs.map Value.text = ws.map Value.text := by
  induction h with
  | nil => rfl
  | cons h _ ih => rw [List.map_cons, List.map_cons, h.text_eq, ih]

theorem call_eq (b : Builtin) {vs ws : List Value} (h : List.Forall₂ Alike vs ws) :
    b.call vs = b.call ws := by
  have hlen := h.length_eq
  cases b with
  | print => simp only [call, map_text_eq h]
  | input | str =>
    simp only [call, atMost, hlen]
    cases h with
    | nil => rfl
    | cons hv _ => simp only [List.head?_cons, Option.map_some, hv.text_eq]
  | int =>
    simp only [call, atMost, hlen]
    cases h with
    | nil => rfl
    | cons hv _ => simp only [List.head?_cons, toInteger_eq hv]
  | len =>
    cases h with
    | nil => rfl
    | cons hv hs =>
      cases hs with
      | nil => simp only [call, length_eq hv]
      | cons _ hs => simp only [call, List.length_cons, hs.length_eq]
  | clear => simp only [call, atMost, hlen]

theorem isPlain_toInteger {v x : Value} (h : toInteger v = .ok x) : x.IsPlain := by
  unfold toInteger at h
  split at h
  · cases h
    trivial
  · cases h
    trivial
  · unfold ofFloat at h
    split at h <;> cases h
    trivial
  · unfold ofText at h
    split at h <;> cases h
    trivial
  · cases h

theorem isPlain_length {v x : Value} (h : length v = .ok x) : x.IsPlain := by
  unfold length at h
  split at h <;> cases h
  trivial

theorem isPlain_of_give {b : Builtin} {vs : List Value} {v : Value}
    (h : b.call vs = .ok (.give v)) :
    v.IsPlain := by
  cases b with
  | print => cases h
  | input =>
    simp only [call, atMost] at h
    split at h <;> cases h
  | str =>
    simp only [call, atMost] at h
    split at h <;> cases h
    trivial
  | int =>
    simp only [call, atMost] at h
    split at h
    · cases h
    · split at h
      · cases h
        trivial
      · next w _ =>
        cases hw : toInteger w with
        | error e =>
          rw [hw] at h
          cases h
        | ok x =>
          rw [hw] at h
          cases h
          exact isPlain_toInteger hw
  | len =>
    simp only [call] at h
    split at h
    · next w =>
      cases hw : length w with
      | error e =>
        rw [hw] at h
        cases h
      | ok x =>
        rw [hw] at h
        cases h
        exact isPlain_length hw
    · cases h
  | clear =>
    simp only [call, atMost] at h
    split at h <;> cases h

end Stepwise.Builtin

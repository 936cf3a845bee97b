/-! Who is told of keys. Every subscription has a number of its own. A key goes to those who
were subscribed when it came, in the order in which they subscribed. -/

namespace Stepwise

structure Hub (α : Type) where
  lastId : Nat
  entries : List (Nat × α)

namespace Hub

variable {α : Type}

def empty : Hub α :=
  ⟨0, []⟩

def subscribe (h : Hub α) (handler : α) : Nat × Hub α :=
  (h.lastId + 1, ⟨h.lastId + 1, h.entries ++ [(h.lastId + 1, handler)]⟩)

def unsubscribe (h : Hub α) (id : Nat) : Hub α :=
  { h with entries := h.entries.filter fun e => e.1 ≠ id }

def size (h : Hub α) : Nat :=
  h.entries.length

def handlers (h : Hub α) : List α :=
  h.entries.map Prod.snd

end Hub

end Stepwise

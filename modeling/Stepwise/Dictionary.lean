/-! Values by name. The entries stand in the order of their keys, which are pairwise different:
writing a key anew takes the place of what was written before. -/

namespace Stepwise

structure Dictionary (α : Type) where
  entries : List (String × α)
  sorted : entries.Pairwise fun e f => e.1 < f.1

namespace Dictionary

variable {α : Type}

def empty : Dictionary α := ⟨[], .nil⟩

instance : Inhabited (Dictionary α) := ⟨empty⟩

def get? (d : Dictionary α) (key : String) : Option α :=
  (d.entries.find? fun e => e.1 == key).map Prod.snd

def insertEntry (key : String) (a : α) : List (String × α) → List (String × α)
  | [] => [(key, a)]
  | e :: rest =>
    if key = e.1 then (key, a) :: rest
    else if key < e.1 then (key, a) :: e :: rest
    else e :: insertEntry key a rest

theorem mem_insertEntry {key : String} {a : α} {f : String × α} {l : List (String × α)}
    (h : f ∈ insertEntry key a l) : f = (key, a) ∨ f ∈ l := by
  induction l with
  | nil => simpa [insertEntry] using h
  | cons e rest ih =>
    rw [insertEntry] at h
    split at h
    · rcases List.mem_cons.1 h with h | h
      · exact .inl h
      · exact .inr (List.mem_cons_of_mem e h)
    · split at h
      · exact List.mem_cons.1 h
      · rcases List.mem_cons.1 h with h | h
        · exact .inr (h ▸ List.mem_cons_self)
        · exact (ih h).imp_right (List.mem_cons_of_mem e)

theorem sorted_insertEntry (key : String) (a : α) {l : List (String × α)}
    (h : l.Pairwise fun e f => e.1 < f.1) :
    (insertEntry key a l).Pairwise fun e f => e.1 < f.1 := by
  induction l with
  | nil => simp [insertEntry]
  | cons e rest ih =>
    obtain ⟨hlt, hrest⟩ := List.pairwise_cons.1 h
    rw [insertEntry]
    split
    · next he => exact List.pairwise_cons.2 ⟨he ▸ hlt, hrest⟩
    · next hne =>
      split
      · next hkey =>
        refine List.pairwise_cons.2 ⟨fun f hf => ?_, h⟩
        rcases List.mem_cons.1 hf with rfl | hf
        · exact hkey
        · exact String.lt_trans hkey (hlt f hf)
      · next hkey =>
        refine List.pairwise_cons.2 ⟨fun f hf => ?_, ih hrest⟩
        rcases mem_insertEntry hf with rfl | hf
        · exact Std.lt_of_le_of_ne hkey fun he => hne he.symm
        · exact hlt f hf

def insert (d : Dictionary α) (key : String) (a : α) : Dictionary α :=
  ⟨insertEntry key a d.entries, sorted_insertEntry key a d.sorted⟩

def erase (d : Dictionary α) (key : String) : Dictionary α :=
  ⟨d.entries.filter fun e => e.1 != key, d.sorted.filter _⟩

def contains (d : Dictionary α) (key : String) : Bool :=
  (d.get? key).isSome

def keys (d : Dictionary α) : List String :=
  d.entries.map Prod.fst

def size (d : Dictionary α) : Nat :=
  d.entries.length

def ofList (entries : List (String × α)) : Dictionary α :=
  entries.foldl (fun d e => d.insert e.1 e.2) empty

@[simp] theorem get?_empty (key : String) : (empty : Dictionary α).get? key = none := rfl

theorem find?_insertEntry (key k : String) (a : α) (l : List (String × α)) :
    ((insertEntry key a l).find? fun e => e.1 == k).map Prod.snd =
      if key = k then some a else (l.find? fun e => e.1 == k).map Prod.snd := by
  induction l with
  | nil => by_cases h : key = k <;> simp [insertEntry, h]
  | cons e rest ih =>
    rw [insertEntry]
    split
    · next h1 => by_cases h : key = k <;> simp [← h1, h]
    · next h1 =>
      split
      · by_cases h : key = k <;> simp [List.find?_cons, h]
      · simp only [List.find?_cons]
        by_cases h2 : e.1 = k
        · have h : key ≠ k := fun h => h1 (h.trans h2.symm)
          simp [h2, h]
        · have h3 : (e.1 == k) = false := by simpa using h2
          rw [h3]
          exact ih

theorem get?_insert (d : Dictionary α) (key k : String) (a : α) :
    (d.insert key a).get? k = if key = k then some a else d.get? k :=
  find?_insertEntry key k a d.entries

end Dictionary

end Stepwise

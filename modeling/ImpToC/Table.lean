/-!
# Tables in order of insertion

A table lists its entries in the order in which their keys came first. Inserting
under a key that is already there changes the entry in its place; a new key goes
to the end. No key stands in a table twice.
-/

namespace ImpToC

variable {α β : Type}

/-- A list of entries with the value of `k` changed in its place, or with a new
entry at the end. -/
def replaceOrAppend [DecidableEq α] (k : α) (v : β) : List (α × β) → List (α × β)
  | [] => [(k, v)]
  | (k', v') :: rest =>
    if k' = k then (k, v) :: rest else (k', v') :: replaceOrAppend k v rest

/-- The keys after a change are the keys before, and the new one at the end if it
was not among them. -/
theorem keys_replaceOrAppend [DecidableEq α] (k : α) (v : β) (entries : List (α × β)) :
    (replaceOrAppend k v entries).map Prod.fst =
      if k ∈ entries.map Prod.fst then entries.map Prod.fst
      else entries.map Prod.fst ++ [k] := by
  induction entries with
  | nil => simp [replaceOrAppend]
  | cons entry rest ih =>
      obtain ⟨k', v'⟩ := entry
      by_cases h : k' = k
      · subst h
        simp [replaceOrAppend]
      · have h' : k ≠ k' := fun heq => h heq.symm
        simp only [replaceOrAppend, if_neg h, List.map_cons, ih, List.mem_cons, h', false_or]
        split <;> simp

/-- Entries with distinct keys, in order of insertion. -/
structure Table (α β : Type) where
  entries : List (α × β)
  nodup : (entries.map Prod.fst).Nodup
  deriving DecidableEq

namespace Table

instance : Inhabited (Table α β) := ⟨⟨[], List.nodup_nil⟩⟩

/-- The table without entries. -/
def empty : Table α β := ⟨[], List.nodup_nil⟩

def keys (t : Table α β) : List α := t.entries.map Prod.fst

def values (t : Table α β) : List β := t.entries.map Prod.snd

def size (t : Table α β) : Nat := t.entries.length

@[simp] theorem keys_empty : (empty : Table α β).keys = [] := rfl

variable [DecidableEq α]

/-- The value under a key. -/
def get? (t : Table α β) (k : α) : Option β := t.entries.lookup k

/-- Put a value under a key. -/
def insert (t : Table α β) (k : α) (v : β) : Table α β where
  entries := replaceOrAppend k v t.entries
  nodup := by
    rw [keys_replaceOrAppend]
    split
    · exact t.nodup
    next h =>
      rw [List.nodup_append]
      refine ⟨t.nodup, by simp, ?_⟩
      intro a ha b hb
      simp only [List.mem_singleton] at hb
      subst hb
      exact fun heq => h (heq ▸ ha)

/-- The table of a list of entries: of several under one key the last counts, in
the place of the first. -/
def ofList (entries : List (α × β)) : Table α β :=
  entries.foldl (fun t e => t.insert e.1 e.2) empty

@[simp] theorem get?_empty (k : α) : (empty : Table α β).get? k = none := rfl

theorem keys_insert (t : Table α β) (k : α) (v : β) :
    (t.insert k v).keys = if k ∈ t.keys then t.keys else t.keys ++ [k] :=
  keys_replaceOrAppend k v t.entries

theorem get?_insert (t : Table α β) (k : α) (v : β) (a : α) :
    (t.insert k v).get? a = if a = k then some v else t.get? a := by
  show (replaceOrAppend k v t.entries).lookup a = if a = k then some v else t.entries.lookup a
  induction t.entries with
  | nil => simp only [replaceOrAppend, List.lookup_cons, List.lookup_nil]; grind
  | cons entry rest ih =>
      obtain ⟨k', v'⟩ := entry
      by_cases hk : k' = k
      · subst hk
        simp only [replaceOrAppend, if_true, List.lookup_cons]
        grind
      · simp only [replaceOrAppend, if_neg hk, List.lookup_cons, ih]
        grind

@[simp] theorem get?_insert_self (t : Table α β) (k : α) (v : β) :
    (t.insert k v).get? k = some v := by
  simp [get?_insert]

theorem get?_insert_of_ne (t : Table α β) {k a : α} (v : β) (h : a ≠ k) :
    (t.insert k v).get? a = t.get? a := by
  simp [get?_insert, h]

end Table

end ImpToC

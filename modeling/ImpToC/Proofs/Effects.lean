import ImpToC.Table

/-!
# Passes and tables

Facts about the monad that a pass over a program runs in, and about looking up and
adding entries of a table.
-/

namespace ImpToC

section Pass

variable {ε σ α β : Type} {s s' : σ}

/-- A pass in two parts succeeds as its parts do, one after the other. -/
theorem bind_eq_ok_iff {x : EStateM ε σ α} {f : α → EStateM ε σ β} {b : β} :
    (x >>= f) s = .ok b s' ↔ ∃ a m, x s = .ok a m ∧ f a m = .ok b s' := by
  show EStateM.bind x f s = .ok b s' ↔ _
  unfold EStateM.bind
  cases x s with
  | ok a m => simp [and_assoc]
  | error => simp

theorem bind_of_ok {x : EStateM ε σ α} {f : α → EStateM ε σ β} {a : α} (h : x s = .ok a s') :
    (x >>= f) s = f a s' := by
  show EStateM.bind x f s = _
  rw [EStateM.bind, h]

theorem bind_of_error {x : EStateM ε σ α} {f : α → EStateM ε σ β} {e : ε}
    (h : x s = .error e s') : (x >>= f) s = .error e s' := by
  show EStateM.bind x f s = _
  rw [EStateM.bind, h]

theorem map_of_ok {x : EStateM ε σ α} {f : α → β} {a : α} (h : x s = .ok a s') :
    (f <$> x) s = .ok (f a) s' := by
  show EStateM.map f x s = _
  rw [EStateM.map, h]

@[simp] theorem pure_eq_ok_iff {a b : α} :
    (pure a : EStateM ε σ α) s = .ok b s' ↔ b = a ∧ s' = s := by
  show EStateM.Result.ok a s = .ok b s' ↔ _
  simp [eq_comm]

@[simp] theorem get_eq_ok_iff {t : σ} :
    (get : EStateM ε σ σ) s = .ok t s' ↔ t = s ∧ s' = s := by
  show EStateM.Result.ok s s = .ok t s' ↔ _
  simp [eq_comm]

@[simp] theorem set_eq_ok_iff {t : σ} {u : PUnit} :
    (set t : EStateM ε σ PUnit) s = .ok u s' ↔ s' = t := by
  show EStateM.Result.ok ⟨⟩ t = .ok u s' ↔ _
  simp [eq_comm]

@[simp] theorem modify_eq_ok_iff {f : σ → σ} {u : PUnit} :
    (modify f : EStateM ε σ PUnit) s = .ok u s' ↔ s' = f s := by
  show EStateM.Result.ok ⟨⟩ (f s) = .ok u s' ↔ _
  simp [eq_comm]

/-- A pass in two parts fails in its first part or behind it. -/
theorem bind_eq_error_iff {x : EStateM ε σ α} {f : α → EStateM ε σ β} {e : ε} :
    (x >>= f) s = .error e s' ↔
      x s = .error e s' ∨ ∃ a m, x s = .ok a m ∧ f a m = .error e s' := by
  show EStateM.bind x f s = .error e s' ↔ _
  unfold EStateM.bind
  cases x s with
  | ok a m => simp [and_assoc]
  | error => simp

@[simp] theorem throw_ne_ok {e : ε} {a : α} : (throw e : EStateM ε σ α) s ≠ .ok a s' := nofun

@[simp] theorem ok_bind {a : α} {f : α → Except ε β} : (Except.ok a >>= f) = f a := rfl

@[simp] theorem error_bind {e : ε} {f : α → Except ε β} :
    ((Except.error e : Except ε α) >>= f) = .error e := rfl

end Pass

namespace Table

variable {α β : Type} [DecidableEq α]

theorem get?_eq_none_iff {t : Table α β} {k : α} : t.get? k = none ↔ k ∉ t.keys := by
  simp only [get?, List.lookup_eq_none_iff, keys, List.mem_map, not_exists, not_and]
  grind

theorem get?_eq_some_iff {t : Table α β} {k : α} {v : β} :
    t.get? k = some v ↔ (k, v) ∈ t.entries := by
  rw [get?, List.lookup_eq_some_iff]
  constructor
  · rintro ⟨front, back, heq, -⟩
    simp [heq]
  · intro hmem
    obtain ⟨front, back, heq⟩ := List.append_of_mem hmem
    refine ⟨front, back, heq, fun entry hentry => ?_⟩
    have hnodup := t.nodup
    rw [heq, List.map_append, List.nodup_append] at hnodup
    have hne := hnodup.2.2 entry.1 (List.mem_map_of_mem hentry) k (by simp)
    simpa using Ne.symm hne

/-- An entry under a new key goes to the end. -/
theorem entries_insert_of_not_mem {t : Table α β} {k : α} (v : β) (h : k ∉ t.keys) :
    (t.insert k v).entries = t.entries ++ [(k, v)] := by
  have hnew : ∀ entries : List (α × β), k ∉ entries.map Prod.fst →
      replaceOrAppend k v entries = entries ++ [(k, v)] := by
    intro entries
    induction entries with
    | nil => exact fun _ => rfl
    | cons entry rest ih =>
        intro hrest
        rw [List.map_cons, List.mem_cons, not_or] at hrest
        rw [replaceOrAppend, if_neg (Ne.symm hrest.1), ih hrest.2, List.cons_append]
  exact hnew t.entries h

section MapValues

variable {γ : Type} (g : β → γ)

omit [DecidableEq α] in
theorem nodup_mapValues (t : Table α β) :
    ((t.entries.map fun e => (e.1, g e.2)).map Prod.fst).Nodup := by
  rw [List.map_map]
  exact t.nodup

/-- A table with a function applied to its values. -/
def mapValues (t : Table α β) : Table α γ := ⟨_, t.nodup_mapValues g⟩

omit [DecidableEq α] in
@[simp] theorem keys_mapValues (t : Table α β) : (t.mapValues g).keys = t.keys := by
  show (t.entries.map fun e => (e.1, g e.2)).map Prod.fst = t.keys
  rw [List.map_map]
  rfl

theorem get?_mapValues (t : Table α β) (k : α) : (t.mapValues g).get? k = (t.get? k).map g := by
  show (t.entries.map fun e => (e.1, g e.2)).lookup k = (t.entries.lookup k).map g
  induction t.entries with
  | nil => rfl
  | cons entry rest ih =>
      obtain ⟨k', v'⟩ := entry
      rw [List.map_cons, List.lookup_cons, List.lookup_cons, ih]
      cases k == k' <;> rfl

theorem mapValues_insert (t : Table α β) (k : α) (v : β) :
    (t.insert k v).mapValues g = (t.mapValues g).insert k (g v) := by
  have hentries : ∀ entries : List (α × β),
      (replaceOrAppend k v entries).map (fun e => (e.1, g e.2)) =
        replaceOrAppend k (g v) (entries.map fun e => (e.1, g e.2)) := by
    intro entries
    induction entries with
    | nil => rfl
    | cons entry rest ih =>
        obtain ⟨k', v'⟩ := entry
        by_cases hk : k' = k
        · simp [replaceOrAppend, hk]
        · simp [replaceOrAppend, hk, ih]
  simp only [mapValues, insert, hentries]

end MapValues

end Table

end ImpToC

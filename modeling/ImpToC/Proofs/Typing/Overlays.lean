import ImpToC.Proofs.Effects

/-!
# A table over another one

The entries of a table put into another one: they change what is there in its place, and what
is new goes to the end.
-/

namespace ImpToC.Table

variable {α β : Type} [DecidableEq α]

omit [DecidableEq α] in
theorem ext_entries {t t' : Table α β} (h : t.entries = t'.entries) : t = t' := by
  cases t
  cases t'
  cases h
  rfl

/-- Tables with the same keys in the same order and the same values under them are the same. -/
theorem ext_get? {t t' : Table α β} (hkeys : t.keys = t'.keys)
    (hvalues : ∀ k, t.get? k = t'.get? k) : t = t' := by
  have hlength : t.entries.length = t'.entries.length := by
    simpa [keys] using congrArg List.length hkeys
  have hentries : t.entries = t'.entries := by
    refine List.ext_getElem hlength fun i hi hi' => ?_
    have hkey : (t.entries[i]).1 = (t'.entries[i]).1 := by
      have hat := congrArg (·[i]?) hkeys
      simpa [keys, hi, hi'] using hat
    have hvalue : t.get? (t.entries[i]).1 = some (t.entries[i]).2 :=
      get?_eq_some_iff.mpr (List.getElem_mem hi)
    have hvalue' : t'.get? (t'.entries[i]).1 = some (t'.entries[i]).2 :=
      get?_eq_some_iff.mpr (List.getElem_mem hi')
    rw [hvalues, hkey, hvalue'] at hvalue
    exact Prod.ext hkey (Option.some.inj hvalue).symm
  exact ext_entries hentries

variable {base added : Table α β}

/-- The entries of a table with those of another one put in. -/
def overlaid (base added : Table α β) : List (α × β) :=
  base.entries.map (fun e => (e.1, (added.get? e.1).getD e.2)) ++
    added.entries.filter fun e => e.1 ∉ base.keys

theorem map_fst_overlaid (base added : Table α β) :
    (overlaid base added).map Prod.fst = base.keys ++ added.keys.filter (· ∉ base.keys) := by
  rw [overlaid, List.map_append, List.map_map, keys, keys, List.filter_map]
  rfl

/-- A table with the entries of another one put in. -/
def overlay (base added : Table α β) : Table α β where
  entries := overlaid base added
  nodup := by
    rw [map_fst_overlaid, List.nodup_append]
    refine ⟨base.nodup, added.nodup.filter _, fun k hk k' hk' heq => ?_⟩
    have hnew := (List.mem_filter.mp hk').2
    exact of_decide_eq_true hnew (heq ▸ hk)

theorem keys_overlay (base added : Table α β) :
    (base.overlay added).keys = base.keys ++ added.keys.filter (· ∉ base.keys) :=
  map_fst_overlaid base added

/-- What has been put in counts. -/
theorem get?_overlay (base added : Table α β) (k : α) :
    (base.overlay added).get? k = (added.get? k).or (base.get? k) := by
  refine Option.ext fun v => ?_
  have hmem : (base.overlay added).get? k = some v ↔
      (∃ u, base.get? k = some u ∧ (added.get? k).getD u = v) ∨
        (added.get? k = some v ∧ k ∉ base.keys) := by
    rw [get?_eq_some_iff]
    show (k, v) ∈ overlaid base added ↔ _
    simp only [overlaid, List.mem_append, List.mem_map, List.mem_filter, decide_eq_true_eq,
      ← get?_eq_some_iff, Prod.exists, Prod.mk.injEq]
    constructor
    · rintro (⟨_, u, hu, rfl, hv⟩ | hnew)
      · exact .inl ⟨u, hu, hv⟩
      · exact .inr hnew
    · rintro (⟨u, hu, hv⟩ | hnew)
      · exact .inl ⟨k, u, hu, rfl, hv⟩
      · exact .inr hnew
  rw [hmem, ← get?_eq_none_iff]
  cases added.get? k <;> cases base.get? k <;> simp

@[simp] theorem overlay_empty (base : Table α β) : base.overlay .empty = base :=
  ext_get? (by simp [keys_overlay]) fun k => by simp [get?_overlay]

/-- To put one more entry in is to have one more entry to put in. -/
theorem overlay_insert (base added : Table α β) (k : α) (v : β) :
    (base.overlay added).insert k v = base.overlay (added.insert k v) := by
  refine ext_get? ?_ fun a => ?_
  · simp only [keys_insert, keys_overlay, List.mem_append, List.mem_filter, decide_eq_true_eq]
    by_cases hbase : k ∈ base.keys <;> by_cases hadded : k ∈ added.keys <;>
      simp [hbase, hadded]
  · simp only [get?_insert, get?_overlay]
    split <;> rfl

end ImpToC.Table

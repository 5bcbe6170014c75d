import Mathlib.Data.List.Induction
import Mathlib.Data.List.Nodup
import Mathlib.Data.List.Perm.Basic

/-!
# Maps in insertion order

The `Map` of JavaScript: its keys are listed in the order in which they were
first set, and setting a key again changes its value in place.
-/

namespace Dockerset.Data

/-- Entries with distinct keys, in order. -/
structure InsertionMap (κ β : Type) where
  entries : List (κ × β)
  nodup : (entries.map Prod.fst).Nodup

variable {κ β : Type} [DecidableEq κ]

/-- The entries after `map.set(k, v)`. -/
def setEntry (k : κ) (v : β) : List (κ × β) → List (κ × β)
  | [] => [(k, v)]
  | e :: l => if e.1 = k then (k, v) :: l else e :: setEntry k v l

theorem keys_setEntry (k : κ) (v : β) (l : List (κ × β)) :
    (setEntry k v l).map Prod.fst =
      if k ∈ l.map Prod.fst then l.map Prod.fst else l.map Prod.fst ++ [k] := by
  induction l with
  | nil => rfl
  | cons e l ih =>
    unfold setEntry
    by_cases hk : e.1 = k
    · simp [hk]
    · have hk' : ¬ k = e.1 := fun h => hk h.symm
      rw [if_neg hk, List.map_cons, ih, List.map_cons]
      by_cases hmem : k ∈ l.map Prod.fst
      · rw [if_pos hmem, if_pos (List.mem_cons_of_mem _ hmem)]
      · rw [if_neg hmem, if_neg (by simpa [hk'] using hmem)]
        rfl

theorem setEntry_of_not_mem {k : κ} {v : β} {l : List (κ × β)} (h : k ∉ l.map Prod.fst) :
    setEntry k v l = l ++ [(k, v)] := by
  induction l with
  | nil => rfl
  | cons e l ih =>
    rw [List.map_cons, List.mem_cons, not_or] at h
    rw [setEntry, if_neg fun heq => h.1 heq.symm, ih h.2]
    rfl

theorem nodup_setEntry {l : List (κ × β)} (h : (l.map Prod.fst).Nodup) (k : κ) (v : β) :
    ((setEntry k v l).map Prod.fst).Nodup := by
  rw [keys_setEntry]
  split
  · exact h
  · next hk =>
    rw [← List.concat_eq_append, List.nodup_concat]
    exact ⟨hk, h⟩

theorem find?_setEntry (k k' : κ) (v : β) (l : List (κ × β)) :
    (setEntry k v l).find? (fun e => e.1 = k') =
      if k' = k then some (k, v) else l.find? fun e => e.1 = k' := by
  induction l with
  | nil =>
    by_cases hk : k' = k
    · simp [setEntry, hk]
    · have hk' : ¬ k = k' := fun h => hk h.symm
      simp [setEntry, hk, hk']
  | cons e l ih =>
    unfold setEntry
    by_cases hek : e.1 = k
    · rw [if_pos hek]
      by_cases hk : k' = k
      · simp [hk]
      · have hk' : ¬ k = k' := fun h => hk h.symm
        simp [hk, hk', hek]
    · rw [if_neg hek]
      by_cases hek' : e.1 = k'
      · have hk : ¬ k' = k := by
          rw [← hek']
          exact hek
        simp [hek', hk]
      · rw [List.find?_cons_of_neg (by simpa using hek'), ih,
          List.find?_cons_of_neg (by simpa using hek')]

namespace InsertionMap

/-- `new Map()`. -/
def empty : InsertionMap κ β := ⟨[], List.nodup_nil⟩

/-- `map.set(k, v)`. -/
def set (m : InsertionMap κ β) (k : κ) (v : β) : InsertionMap κ β :=
  ⟨setEntry k v m.entries, nodup_setEntry m.nodup k v⟩

/-- `map.get(k)`. -/
def get? (m : InsertionMap κ β) (k : κ) : Option β := (m.entries.find? fun e => e.1 = k).map Prod.snd

/-- `map.has(k)`. -/
def has (m : InsertionMap κ β) (k : κ) : Bool := (m.get? k).isSome

/-- `map.keys()`. -/
def keys (m : InsertionMap κ β) : List κ := m.entries.map Prod.fst

/-- `map.values()`. -/
def values (m : InsertionMap κ β) : List β := m.entries.map Prod.snd

/-- `map.delete(k)`. -/
def delete (m : InsertionMap κ β) (k : κ) : InsertionMap κ β :=
  ⟨m.entries.filter fun e => e.1 ≠ k, (List.filter_sublist.map Prod.fst).nodup m.nodup⟩

variable {m : InsertionMap κ β} {l : List (κ × β)} {k : κ} {v : β}

@[simp] theorem get?_empty (k : κ) : (empty : InsertionMap κ β).get? k = none := rfl

@[simp] theorem get?_set (m : InsertionMap κ β) (k k' : κ) (v : β) :
    (m.set k v).get? k' = if k' = k then some v else m.get? k' := by
  simp only [get?, set, find?_setEntry]
  split <;> rfl

theorem has_iff : m.has k = true ↔ k ∈ m.keys := by
  simp [has, get?, keys]

theorem mem_keys_set {k' : κ} : k' ∈ (m.set k v).keys ↔ k' = k ∨ k' ∈ m.keys := by
  rw [← has_iff, ← has_iff, has, has, get?_set]
  split
  · next h => simp [h]
  · next h => simp [h]

theorem mem_entries_of_get? (h : m.get? k = some v) : (k, v) ∈ m.entries := by
  obtain ⟨e, he, rfl⟩ := Option.map_eq_some_iff.1 h
  have hk : e.1 = k := by simpa using List.find?_some he
  rw [← hk]
  exact List.mem_of_find?_eq_some he

theorem get?_of_mem_entries {e : κ × β} (h : e ∈ m.entries) : m.get? e.1 = some e.2 := by
  have hsome := has_iff.2 (List.mem_map_of_mem h : e.1 ∈ m.keys)
  obtain ⟨v, hv⟩ := Option.isSome_iff_exists.1 hsome
  have hmem := mem_entries_of_get? hv
  rw [hv, List.inj_on_of_nodup_map m.nodup h hmem rfl]

theorem mem_entries_delete {e : κ × β} : e ∈ (m.delete k).entries ↔ e ∈ m.entries ∧ e.1 ≠ k := by
  simp [delete]

theorem mem_entries_set {e : κ × β}
    (h : e ∈ (m.set k v).entries) : e = (k, v) ∨ (e ∈ m.entries ∧ e.1 ≠ k) := by
  have hget := get?_of_mem_entries h
  rw [get?_set] at hget
  split at hget
  · next hk =>
    rw [← hk, Option.some.inj hget]
    exact .inl rfl
  · next hk => exact .inr ⟨mem_entries_of_get? hget, hk⟩

/-! ## The map that a list of assignments leaves -/

/-- The assignments, one after the other. -/
def ofList (l : List (κ × β)) : InsertionMap κ β := l.foldl (fun m e => m.set e.1 e.2) empty

theorem ofList_concat (l : List (κ × β)) (e : κ × β) : ofList (l ++ [e]) = (ofList l).set e.1 e.2 := by
  simp [ofList]

theorem get?_ofList (l : List (κ × β)) (k : κ) :
    (ofList l).get? k = ((l.filter fun e => e.1 = k).getLast?).map Prod.snd := by
  induction l using List.reverseRecOn with
  | nil => rfl
  | append_singleton l e ih =>
    rw [ofList_concat, get?_set, List.filter_append, ih]
    by_cases hk : k = e.1
    · simp [hk]
    · have hk' : ¬ e.1 = k := fun h => hk h.symm
      simp [hk, hk']

theorem mem_keys_ofList : k ∈ (ofList l).keys ↔ k ∈ l.map Prod.fst := by
  induction l using List.reverseRecOn with
  | nil => rfl
  | append_singleton l e ih =>
    rw [ofList_concat, mem_keys_set, ih, List.map_append, List.mem_append]
    simp [or_comm]

theorem get?_ofList_eq_none (h : k ∉ l.map Prod.fst) : (ofList l).get? k = none := by
  rw [← mem_keys_ofList, ← has_iff, has, Bool.not_eq_true, Option.isSome_eq_false_iff] at h
  exact Option.isNone_iff_eq_none.1 h

theorem get?_ofList_eq_some (h : k ∈ l.map Prod.fst)
    (hv : ∀ e ∈ l, e.2 = v) : (ofList l).get? k = some v := by
  have hsome := has_iff.2 (mem_keys_ofList.2 h)
  obtain ⟨w, hw⟩ := Option.isSome_iff_exists.1 hsome
  rw [hw]
  rw [get?_ofList] at hw
  obtain ⟨e, he, rfl⟩ := Option.map_eq_some_iff.1 hw
  rw [hv e (List.mem_of_mem_filter (List.mem_of_getLast? he))]

theorem entries_ofList (h : (l.map Prod.fst).Nodup) : (ofList l).entries = l := by
  induction l using List.reverseRecOn with
  | nil => rfl
  | append_singleton l e ih =>
    rw [List.map_append, List.map_singleton] at h
    rw [← List.concat_eq_append, List.nodup_concat] at h
    obtain ⟨hnew, hnodup⟩ := h
    rw [ofList_concat]
    have hold := ih hnodup
    change setEntry e.1 e.2 (ofList l).entries = _
    rw [hold, setEntry_of_not_mem hnew]

end InsertionMap

end Dockerset.Data

import Mathlib.Data.List.AList

/-!
# Restricting an association list to some of its keys

Go maps are association lists with distinct keys (`AList`). Deleting all keys
that satisfy a test while ranging over a map is `filterKeys` of its negation.
-/

namespace AList

universe u v

variable {α : Type u} {β : α → Type v}

/-- The entries whose key satisfies `f`. -/
def filterKeys (f : α → Bool) (s : AList β) : AList β :=
  ⟨s.entries.filter fun e => f e.1, s.nodupKeys.sublist List.filter_sublist⟩

variable [DecidableEq α]

theorem lookup_filterKeys (f : α → Bool) (s : AList β) (a : α) :
    (s.filterKeys f).lookup a = if f a = true then s.lookup a else none := by
  obtain ⟨l, hl⟩ := s
  simp only [filterKeys, lookup]
  clear hl
  induction l with
  | nil => simp
  | cons e l ih =>
    obtain ⟨k, v⟩ := e
    by_cases hk : a = k
    · subst hk
      by_cases hf : f a = true
      · simp [hf]
      · simp only [hf, Bool.false_eq_true, ↓reduceIte] at ih ⊢
        rw [List.filter_cons_of_neg (by simpa using hf)]
        exact ih
    · rw [List.dlookup_cons_ne _ _ hk, ← ih]
      by_cases hf : f k = true
      · rw [List.filter_cons_of_pos (by simpa using hf), List.dlookup_cons_ne _ _ hk]
      · rw [List.filter_cons_of_neg (by simpa using hf)]

theorem lookup_insert_eq_ite {β : Type v} (s : AList fun _ : α => β) (a a' : α) (b : β) :
    (s.insert a b).lookup a' = if a' = a then some b else s.lookup a' := by
  split
  · next h => subst h; exact lookup_insert s
  · next h => exact lookup_insert_ne h

theorem lookup_erase_eq_ite {β : Type v} (s : AList fun _ : α => β) (a a' : α) :
    (s.erase a).lookup a' = if a' = a then none else s.lookup a' := by
  split
  · next h => subst h; exact lookup_erase _ s
  · next h => exact lookup_erase_ne h

theorem mem_keys_iff_lookup {β : Type v} (s : AList fun _ : α => β) (a : α) :
    a ∈ s.keys ↔ ∃ b, s.lookup a = some b := by
  rw [← mem_keys, ← lookup_isSome, Option.isSome_iff_exists]

end AList

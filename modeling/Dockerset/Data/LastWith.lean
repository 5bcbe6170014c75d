import Mathlib.Data.List.Induction

/-!
# The last element with a property

The end of a list that has grown by one element is that element, or it ends with it
(`concat_eq_append_cons`).
-/

namespace Dockerset.Data

variable {α : Type}

theorem concat_eq_append_cons {l earlier later : List α} {a x : α}
    (h : l ++ [a] = earlier ++ x :: later) :
    (later = [] ∧ l = earlier ∧ a = x) ∨ ∃ rest, later = rest ++ [a] ∧ l = earlier ++ x :: rest := by
  induction later using List.reverseRecOn with
  | nil =>
    obtain ⟨hl, ha⟩ := List.append_inj' h rfl
    exact .inl ⟨rfl, hl, List.singleton_inj.1 ha⟩
  | append_singleton rest y _ =>
    rw [← List.cons_append, ← List.append_assoc] at h
    obtain ⟨hl, ha⟩ := List.append_inj' h rfl
    rw [List.singleton_inj.1 ha]
    exact .inr ⟨rest, rfl, hl⟩

/-- The element is the last one of the list with the property. -/
def LastWith (p : α → Prop) (l : List α) (a : α) : Prop :=
  ∃ earlier later, l = earlier ++ a :: later ∧ p a ∧ ∀ x ∈ later, ¬ p x

variable {p : α → Prop} {l : List α} {a x : α}

theorem lastWith_concat_of (h : p a) : LastWith p (l ++ [a]) x ↔ x = a := by
  constructor
  · rintro ⟨earlier, later, heq, -, hlater⟩
    rcases concat_eq_append_cons heq with ⟨-, -, ha⟩ | ⟨rest, hrest, -⟩
    · exact ha.symm
    · exact absurd h (hlater a (by simp [hrest]))
  · rintro rfl
    exact ⟨l, [], rfl, h, by simp⟩

theorem lastWith_concat_of_not (h : ¬ p a) :
    LastWith p (l ++ [a]) x ↔ LastWith p l x := by
  constructor
  · rintro ⟨earlier, later, heq, hx, hlater⟩
    rcases concat_eq_append_cons heq with ⟨-, -, ha⟩ | ⟨rest, hrest, hl⟩
    · rw [← ha] at hx
      exact absurd hx h
    · exact ⟨earlier, rest, hl, hx, fun z hz => hlater z (by simp [hrest, hz])⟩
  · rintro ⟨earlier, later, rfl, hx, hlater⟩
    refine ⟨earlier, later ++ [a], by simp, hx, ?_⟩
    intro z hz
    rcases List.mem_append.1 hz with hz | hz
    · exact hlater z hz
    · rw [List.mem_singleton.1 hz]
      exact h

theorem not_lastWith_nil : ¬ LastWith p [] x := by
  rintro ⟨earlier, later, heq, -⟩
  simp at heq

theorem lastWith_congr {q : α → Prop} (h : ∀ a, p a ↔ q a) :
    LastWith p l x ↔ LastWith q l x := by
  rw [show p = q from funext fun a => propext (h a)]

theorem exists_lastWith (h : ∃ b ∈ l, p b) : ∃ b, LastWith p l b := by
  induction l using List.reverseRecOn with
  | nil =>
    obtain ⟨b, hb, -⟩ := h
    cases hb
  | append_singleton l c ih =>
    by_cases hc : p c
    · exact ⟨c, (lastWith_concat_of hc).2 rfl⟩
    · obtain ⟨b, hb, hp⟩ := h
      have hmem : b ∈ l := by
        rcases List.mem_append.1 hb with hmem | hmem
        · exact hmem
        · rw [List.mem_singleton.1 hmem] at hp
          exact absurd hp hc
      obtain ⟨b', hb'⟩ := ih ⟨b, hmem, hp⟩
      exact ⟨b', (lastWith_concat_of_not hc).2 hb'⟩

/-- The element is at a place after which none has the property. -/
theorem lastWith_iff_getElem? :
    LastWith p l a ↔ ∃ i : Nat, l[i]? = some a ∧ p a ∧ ∀ j b, i < j → l[j]? = some b → ¬ p b := by
  constructor
  · rintro ⟨earlier, later, rfl, ha, hlater⟩
    refine ⟨earlier.length, by simp, ha, ?_⟩
    intro j b hj hb
    rw [List.getElem?_append_right (Nat.le_of_lt hj)] at hb
    obtain ⟨k, hk⟩ := Nat.exists_eq_add_of_lt hj
    rw [show j - earlier.length = k + 1 by omega, List.getElem?_cons_succ] at hb
    exact hlater b (List.mem_of_getElem? hb)
  · rintro ⟨i, hi, ha, hlater⟩
    obtain ⟨hlt, rfl⟩ := List.getElem?_eq_some_iff.1 hi
    refine ⟨l.take i, l.drop (i + 1), by simp, ha, ?_⟩
    intro b hb
    obtain ⟨k, hk⟩ := List.mem_iff_getElem?.1 hb
    rw [List.getElem?_drop] at hk
    exact hlater _ b (by omega) hk

theorem LastWith.unique {b : α} (h : LastWith p l a) (h' : LastWith p l b) : a = b := by
  induction l using List.reverseRecOn with
  | nil => exact absurd h not_lastWith_nil
  | append_singleton l c ih =>
    by_cases hc : p c
    · rw [lastWith_concat_of hc] at h h'
      rw [h, h']
    · rw [lastWith_concat_of_not hc] at h h'
      exact ih h h'

theorem lastWith_cons_iff {b : α} :
    LastWith p (b :: l) a ↔ LastWith p l a ∨ (a = b ∧ p b ∧ ∀ x ∈ l, ¬ p x) := by
  constructor
  · rintro ⟨earlier, later, heq, ha, hlater⟩
    cases earlier with
    | nil =>
      obtain ⟨rfl, rfl⟩ := List.cons.inj heq
      exact .inr ⟨rfl, ha, hlater⟩
    | cons y earlier =>
      obtain ⟨rfl, rfl⟩ := List.cons.inj heq
      exact .inl ⟨earlier, later, rfl, ha, hlater⟩
  · rintro (⟨earlier, later, rfl, ha, hlater⟩ | ⟨rfl, ha, hlater⟩)
    · exact ⟨b :: earlier, later, rfl, ha, hlater⟩
    · exact ⟨[], l, rfl, ha, hlater⟩

end Dockerset.Data

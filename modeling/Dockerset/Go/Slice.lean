import Mathlib.Data.List.Basic

/-!
# Slices and their arrays

A slice is a window of an array: `append` writes into the array where there is
room behind the slice, and only otherwise makes a new one. Two slices of one array
can therefore see each other's appends. The slices here start at the beginning of
their arrays, as those that only `append` has made do.

How much room a new array has is up to the compiler; it is a parameter.
-/

namespace Dockerset.Go

/-- The arrays there are, each with the cells that have been written. -/
abbrev Heap (α : Type) := List (List α)

def Heap.cells {α : Type} (h : Heap α) (a : Nat) : List α := (h[a]?).getD []

structure Slice where
  array : Nat
  len : Nat
  cap : Nat
deriving DecidableEq

/-- The capacity of a new array, from the one it replaces and the length it must hold. -/
structure Growth where
  newCap : Nat → Nat → Nat
  le_newCap : ∀ oldCap len, len ≤ newCap oldCap len

namespace Slice

variable {α : Type}

/-- The zero value of a slice variable. -/
def nil : Slice := ⟨0, 0, 0⟩

def read (h : Heap α) (s : Slice) : List α := (h.cells s.array).take s.len

/-- There is no room for `n` more elements. -/
def Full (s : Slice) (n : Nat) : Prop := s.cap < s.len + n

instance (s : Slice) (n : Nat) : Decidable (s.Full n) := inferInstanceAs (Decidable (_ < _))

/-- `append(s, xs...)`. -/
def append (g : Growth) (h : Heap α) (s : Slice) (xs : List α) : Slice × Heap α :=
  if s.Full xs.length then
    (⟨h.length, s.len + xs.length, g.newCap s.cap (s.len + xs.length)⟩, h ++ [s.read h ++ xs])
  else
    ({ s with len := s.len + xs.length },
      h.modify s.array fun cells => cells.take s.len ++ xs ++ cells.drop (s.len + xs.length))

/-- The window lies in its array. -/
structure Valid (h : Heap α) (s : Slice) : Prop where
  le_cap : s.len ≤ s.cap
  length_read : (s.read h).length = s.len
  allocated : 0 < s.cap → s.array < h.length

theorem valid_nil (h : Heap α) : nil.Valid h where
  le_cap := Nat.le_refl 0
  length_read := by simp [read, nil]
  allocated hpos := absurd hpos (Nat.lt_irrefl 0)

variable {g : Growth} {h : Heap α} {s t : Slice} {xs : List α}

/-! ## The arrays after an append -/

theorem cells_concat_of_lt {a : Nat} {cells : List α} (ha : a < h.length) :
    Heap.cells (h ++ [cells]) a = h.cells a := by
  rw [Heap.cells, List.getElem?_append_left ha]
  rfl

theorem cells_concat_length {cells : List α} : Heap.cells (h ++ [cells]) h.length = cells := by
  simp [Heap.cells]

theorem cells_modify {a : Nat} (f : List α → List α) (ha : a < h.length) :
    Heap.cells (h.modify a f) a = f (h.cells a) := by
  simp [Heap.cells, ha]

theorem cells_modify_of_ne {a b : Nat} (f : List α → List α) (hab : a ≠ b) :
    Heap.cells (h.modify a f) b = h.cells b := by
  simp [Heap.cells, hab]

@[simp] theorem len_append : (s.append g h xs).1.len = s.len + xs.length := by
  unfold append
  split <;> rfl

theorem append_of_not_full (hfull : ¬ s.Full xs.length) :
    (s.append g h xs).1 = { s with len := s.len + xs.length } := by
  rw [append, if_neg hfull]

theorem append_of_full (hfull : s.Full xs.length) :
    (s.append g h xs).1 =
      ⟨h.length, s.len + xs.length, g.newCap s.cap (s.len + xs.length)⟩ := by
  rw [append, if_pos hfull]

theorem length_le_append : h.length ≤ (s.append g h xs).2.length := by
  unfold append
  split
  · simp
  · simp

theorem cells_append_of_full {a : Nat} (hfull : s.Full xs.length) (ha : a < h.length) :
    Heap.cells (s.append g h xs).2 a = h.cells a := by
  rw [append, if_pos hfull]
  exact cells_concat_of_lt ha

theorem cells_append_of_ne {a : Nat} (hfull : ¬ s.Full xs.length) (hne : s.array ≠ a) :
    Heap.cells (s.append g h xs).2 a = h.cells a := by
  rw [append, if_neg hfull]
  exact cells_modify_of_ne _ hne

theorem Valid.len_le_cells (hs : s.Valid h) : s.len ≤ (h.cells s.array).length := by
  have hlen := hs.length_read
  rw [read, List.length_take] at hlen
  omega

theorem Valid.cells_append (hs : s.Valid h) (hfull : ¬ s.Full xs.length) :
    Heap.cells (s.append g h xs).2 s.array =
      s.read h ++ xs ++ (h.cells s.array).drop (s.len + xs.length) := by
  rw [append, if_neg hfull]
  by_cases halloc : s.array < h.length
  · exact cells_modify _ halloc
  · -- The slice is nil, and nothing is appended to it.
    have hcap : s.cap = 0 := by
      by_contra hpos
      exact halloc (hs.allocated (by omega))
    have hle := hs.le_cap
    unfold Full at hfull
    have hlen : s.len = 0 := by omega
    have hxs : xs = [] := List.eq_nil_of_length_eq_zero (by omega)
    simp [Heap.cells, read, hlen, hxs, halloc]

/-! ## What slices read after an append -/

theorem Valid.read_append (hs : s.Valid h) :
    (s.append g h xs).1.read (s.append g h xs).2 = s.read h ++ xs := by
  have hlen : (s.read h ++ xs).length = s.len + xs.length := by
    rw [List.length_append, hs.length_read]
  rw [read, len_append, ← hlen]
  by_cases hfull : s.Full xs.length
  · rw [append, if_pos hfull, cells_concat_length, List.take_length]
  · have hcells := hs.cells_append (g := g) hfull
    rw [append_of_not_full hfull]
    change List.take _ (Heap.cells (s.append g h xs).2 s.array) = _
    rw [hcells, List.take_left']
    rfl

theorem Valid.read_append_other (hs : s.Valid h) (ht : t.Valid h)
    (hapart : s.Full xs.length ∨ s.array ≠ t.array ∨ t.len ≤ s.len) :
    t.read (s.append g h xs).2 = t.read h := by
  by_cases hzero : t.len = 0
  · simp [read, hzero]
  · have halloc : t.array < h.length := by
      have hle := ht.le_cap
      exact ht.allocated (by omega)
    by_cases hfull : s.Full xs.length
    · rw [read, cells_append_of_full hfull halloc]
      rfl
    · by_cases harray : s.array = t.array
      · have hle : t.len ≤ s.len := by
          rcases hapart with h1 | h2 | h3
          · exact absurd h1 hfull
          · exact absurd harray h2
          · exact h3
        have hcells := hs.cells_append (g := g) hfull
        rw [read, read, ← harray, hcells, List.append_assoc, List.take_append_of_le_length, read,
          List.take_take, Nat.min_eq_left hle]
        rw [hs.length_read]
        exact hle
      · rw [read, cells_append_of_ne hfull harray]
        rfl

/-- A slice that ends where the new one does reads the new elements, if the array is the same. -/
theorem Valid.read_append_shared (hs : s.Valid h) (hfull : ¬ s.Full xs.length)
    (harray : t.array = s.array) (hlen : t.len = s.len + xs.length) :
    t.read (s.append g h xs).2 = s.read h ++ xs := by
  have hread : (s.append g h xs).1.read (s.append g h xs).2 = s.read h ++ xs := hs.read_append
  rw [append_of_not_full hfull] at hread
  rw [← hread, read, harray, hlen]
  rfl

theorem Valid.append (hs : s.Valid h) : (s.append g h xs).1.Valid (s.append g h xs).2 where
  le_cap := by
    by_cases hfull : s.Full xs.length
    · rw [append_of_full hfull]
      exact g.le_newCap _ _
    · rw [append_of_not_full hfull]
      exact Nat.le_of_not_lt hfull
  length_read := by
    rw [hs.read_append, len_append, List.length_append, hs.length_read]
  allocated hpos := by
    by_cases hfull : s.Full xs.length
    · simp [Slice.append, hfull]
    · rw [append_of_not_full hfull] at hpos ⊢
      exact Nat.lt_of_lt_of_le (hs.allocated hpos) length_le_append

theorem Valid.append_other (hs : s.Valid h) (ht : t.Valid h) : t.Valid (s.append g h xs).2 where
  le_cap := ht.le_cap
  length_read := by
    by_cases hapart : s.Full xs.length ∨ s.array ≠ t.array ∨ t.len ≤ s.len
    · rw [hs.read_append_other ht hapart]
      exact ht.length_read
    · rw [not_or, not_or, not_not] at hapart
      obtain ⟨hfull, harray, -⟩ := hapart
      have hcells := hs.cells_append (g := g) hfull
      have hlen := ht.len_le_cells
      have hread := hs.length_read
      rw [read, List.length_take, ← harray, hcells, List.length_append, List.length_append,
        List.length_drop, hread]
      rw [← harray] at hlen
      omega
  allocated hpos := Nat.lt_of_lt_of_le (ht.allocated hpos) length_le_append

end Slice

end Dockerset.Go

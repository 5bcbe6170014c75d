import Mathlib.Data.List.Basic

/-!
# Byte strings

Go's `[]byte` and `string` as lists of bytes, with the operations that panic
when they leave them. A slice expression is held to the length of its operand;
Go itself allows the capacity, so what does not panic here does not panic there.
-/

namespace Dockerset.Go

abbrev Bytes := List UInt8

/-- A run-time panic: an index, or the bounds of a slice, out of range. -/
inductive Panic where
  | index
  | slice
deriving DecidableEq

/-- `b[i]`. -/
def byteAt (b : Bytes) (i : Nat) : Except Panic UInt8 :=
  match b[i]? with
  | some x => .ok x
  | none => .error .index

/-- `b[i:j]`. -/
def slice (b : Bytes) (i j : Nat) : Except Panic Bytes :=
  if i ≤ j ∧ j ≤ b.length then .ok ((b.drop i).take (j - i)) else .error .slice

/-- `strings.Index(s, sub)`. -/
def indexBytes (s sub : Bytes) : Option Nat := s.tails.findIdx? sub.isPrefixOf

/-- `int(binary.BigEndian.Uint16(b))`. -/
def bigEndianUint16 (b : Bytes) : Except Panic Nat := do
  let lo ← byteAt b 1
  let hi ← byteAt b 0
  return hi.toNat * 256 + lo.toNat

/-! ## Programs that do not panic -/

theorem ok_bind {α β : Type} (a : α) (f : α → Except Panic β) : (Except.ok a >>= f) = f a := rfl

/-- The program returns. -/
def Returns {α : Type} (x : Except Panic α) : Prop := ∃ a, x = .ok a

namespace Returns

variable {α β : Type}

theorem pure (a : α) : Returns (Pure.pure a) := ⟨a, rfl⟩

theorem bind {x : Except Panic α} {f : α → Except Panic β} (hx : Returns x)
    (hf : ∀ a, x = .ok a → Returns (f a)) : Returns (x >>= f) := by
  obtain ⟨a, ha⟩ := hx
  obtain ⟨c, hc⟩ := hf a ha
  refine ⟨c, ?_⟩
  rw [ha]
  exact hc

theorem ite {c : Prop} [Decidable c] {x y : Except Panic α} (hx : c → Returns x)
    (hy : ¬ c → Returns y) : Returns (if c then x else y) := by
  split
  · next h => exact hx h
  · next h => exact hy h

end Returns

variable {b : Bytes} {i j : Nat}

theorem byteAt_of_lt (h : i < b.length) : byteAt b i = .ok b[i] := by
  rw [byteAt, List.getElem?_eq_getElem h]

theorem slice_of_le (h : i ≤ j) (h' : j ≤ b.length) : slice b i j = .ok ((b.drop i).take (j - i)) :=
  if_pos ⟨h, h'⟩

theorem returns_byteAt (h : i < b.length) : Returns (byteAt b i) := ⟨_, byteAt_of_lt h⟩

theorem returns_slice (h : i ≤ j) (h' : j ≤ b.length) : Returns (slice b i j) := ⟨_, slice_of_le h h'⟩

theorem uint16_of_le (h : i + 2 ≤ b.length) :
    (slice b i (i + 2) >>= bigEndianUint16) = .ok (b[i].toNat * 256 + b[i + 1].toNat) := by
  have hlen : ((b.drop i).take 2).length = 2 := by
    rw [List.length_take, List.length_drop]
    omega
  rw [slice_of_le (by omega) h, Nat.add_sub_cancel_left]
  change bigEndianUint16 ((b.drop i).take 2) = _
  rw [bigEndianUint16, byteAt_of_lt (by omega), byteAt_of_lt (by omega)]
  simp [bind, Except.bind, pure, Except.pure]

theorem returns_uint16 (h : i + 2 ≤ b.length) : Returns (slice b i (i + 2) >>= bigEndianUint16) :=
  ⟨_, uint16_of_le h⟩

end Dockerset.Go

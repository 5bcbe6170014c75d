import Dockerset.Go.Bytes

/-!
# Bytes at an offset

A reader with an offset is described by what stands in the buffer from that
offset on. `Window b i w` says that the bytes `w` do; the lemmas split a window
where the reader moves its offset, and turn its beginning into the outcome of
the read.
-/

namespace Dockerset.Go

/-- The bytes `w` stand in `b` from offset `i` on. -/
def Window (b : Bytes) (i : Nat) (w : Bytes) : Prop :=
  ∃ before after, b = before ++ w ++ after ∧ before.length = i

/-- `binary.BigEndian.AppendUint16(nil, n)`. -/
def putUint16 (n : UInt16) : Bytes := [(n >>> 8).toUInt8, n.toUInt8]

@[simp] theorem length_putUint16 (n : UInt16) : (putUint16 n).length = 2 := rfl

theorem putUint16_value (n : UInt16) :
    (n >>> 8).toUInt8.toNat * 256 + n.toUInt8.toNat = n.toNat := by
  have hlt := n.toNat_lt
  simp only [UInt16.toNat_toUInt8, UInt16.toNat_shiftRight, UInt16.reduceToNat, Nat.reduceMod,
    Nat.shiftRight_eq_div_pow]
  omega

section

variable {b w v : Bytes} {i : Nat} {x : UInt8}

theorem Window.le (h : Window b i w) : i + w.length ≤ b.length := by
  obtain ⟨before, after, rfl, rfl⟩ := h
  simp only [List.length_append]
  omega

theorem window_append : Window b i (w ++ v) ↔ Window b i w ∧ Window b (i + w.length) v := by
  constructor
  · intro h
    obtain ⟨before, after, rfl, rfl⟩ := h
    constructor
    · exact ⟨before, v ++ after, by simp only [List.append_assoc], rfl⟩
    · exact ⟨before ++ w, after, by simp only [List.append_assoc], List.length_append⟩
  · intro h
    obtain ⟨⟨before, after, hb, hi⟩, before', after', hb', hi'⟩ := h
    have hsame : before ++ w = before' := by
      rw [hb, List.append_assoc before'] at hb'
      apply List.append_inj_left hb'
      rw [hi', List.length_append, hi]
    exact ⟨before, after', by rw [hb', ← hsame, List.append_assoc before], hi⟩

theorem Window.cast {j : Nat} (h : Window b i w) (hij : i = j) : Window b j w := hij ▸ h

theorem Window.left (h : Window b i (w ++ v)) : Window b i w := (window_append.1 h).1

theorem Window.right (h : Window b i (w ++ v)) : Window b (i + w.length) v := (window_append.1 h).2

theorem Window.tail (h : Window b i (x :: w)) : Window b (i + 1) w := Window.right (w := [x]) h

theorem Window.getElem? (h : Window b i (x :: w)) : b[i]? = some x := by
  obtain ⟨before, after, rfl, rfl⟩ := h
  rw [List.append_assoc, List.getElem?_append_right (Nat.le_refl _), Nat.sub_self]
  rfl

theorem Window.drop_take (h : Window b i w) : (b.drop i).take w.length = w := by
  obtain ⟨before, after, rfl, rfl⟩ := h
  rw [List.append_assoc, List.drop_left, List.take_left]

theorem window_nil (h : i ≤ b.length) : Window b i [] := by
  refine ⟨b.take i, b.drop i, ?_, ?_⟩
  · rw [List.append_nil, List.take_append_drop]
  · rw [List.length_take]
    omega

theorem window_take_drop {n : Nat} (h : i + n ≤ b.length) : Window b i ((b.drop i).take n) := by
  refine ⟨b.take i, (b.drop i).drop n, ?_, ?_⟩
  · rw [List.append_assoc, List.take_append_drop, List.take_append_drop]
  · rw [List.length_take]
    omega

theorem window_whole : Window b 0 w ∧ b.length = w.length ↔ w = b := by
  constructor
  · rintro ⟨⟨before, after, rfl, hbefore⟩, hlen⟩
    rw [List.length_eq_zero_iff.1 hbefore, List.nil_append, List.length_append] at hlen
    have hafter : after = [] := List.length_eq_zero_iff.1 (by omega)
    rw [List.length_eq_zero_iff.1 hbefore, hafter, List.nil_append, List.append_nil]
  · rintro rfl
    exact ⟨⟨[], [], by rw [List.nil_append, List.append_nil], rfl⟩, rfl⟩

/-- A walk over items one after another comes to the one that follows `before`. What
it can do, `R`, may depend on the offset being at least `lo`. -/
theorem Window.walk {α : Type} {item : α → Bytes} {R : Nat → Nat → Prop} {lo stop : Nat}
    {before : List α} {x : α} (hlo : lo ≤ i)
    (here : ∀ k, lo ≤ k → Window b k (item x) → k + (item x).length ≤ stop → R k k)
    (skip : ∀ k j, ∀ y ∈ before, lo ≤ k → Window b k (item y) → k + (item y).length ≤ stop →
      R (k + (item y).length) j → R k j)
    (h : Window b i (before.flatMap item ++ item x))
    (hstop : i + (before.flatMap item ++ item x).length ≤ stop) :
    R i (i + (before.flatMap item).length) := by
  induction before generalizing i with
  | nil =>
    rw [List.flatMap_nil, List.nil_append] at h hstop
    exact here i hlo h hstop
  | cons y before ih =>
    rw [List.flatMap_cons, List.append_assoc] at h hstop
    rw [List.length_append, ← Nat.add_assoc] at hstop
    have hrest : R (i + (item y).length) (i + (item y).length + (before.flatMap item).length) := by
      apply ih (by omega) _ h.right hstop
      intro k j z hz
      exact skip k j z (List.mem_cons_of_mem y hz)
    rw [List.flatMap_cons, List.length_append, ← Nat.add_assoc]
    exact skip i _ y List.mem_cons_self hlo h.left (by omega) hrest

/-! ## Reads -/

theorem Window.byteAt (h : Window b i (x :: w)) : byteAt b i = .ok x := by
  rw [Go.byteAt, h.getElem?]

theorem Window.slice (h : Window b i w) : Go.slice b i (i + w.length) = .ok w := by
  rw [slice_of_le (by omega) h.le, Nat.add_sub_cancel_left, h.drop_take]

theorem Window.uint16 {n : UInt16} (h : Window b i (putUint16 n ++ w)) :
    (Go.slice b i (i + 2) >>= bigEndianUint16) = .ok n.toNat := by
  have hle := h.left.le
  rw [length_putUint16] at hle
  have hhi : b[i]? = some (n >>> 8).toUInt8 := h.getElem?
  have hlo : b[i + 1]? = some n.toUInt8 := h.tail.getElem?
  rw [List.getElem?_eq_getElem (by omega)] at hhi hlo
  rw [uint16_of_le hle, Option.some.inj hhi, Option.some.inj hlo, putUint16_value]

end

end Dockerset.Go

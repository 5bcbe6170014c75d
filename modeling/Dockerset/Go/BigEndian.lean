import Dockerset.Go.Bytes
import Mathlib.Data.List.Induction
import Mathlib.Algebra.Group.Nat.Defs

/-!
# Numbers, the most significant byte first

`bigEndian width n` is a number as it stands in a buffer, `beNat` the number that
bytes spell. The width is a parameter; a number that is too wide loses its upper
bytes.
-/

namespace Dockerset.Go

/-- The number that the bytes spell. -/
def beNat (b : Bytes) : Nat := b.foldl (fun n x => n * 256 + x.toNat) 0

/-- The last `width` bytes of a number. -/
def bigEndian : Nat → Nat → Bytes
  | 0, _ => []
  | width + 1, n => bigEndian width (n / 256) ++ [UInt8.ofNat n]

theorem beNat_concat (b : Bytes) (x : UInt8) : beNat (b ++ [x]) = beNat b * 256 + x.toNat := by
  simp [beNat]

@[simp] theorem length_bigEndian (width n : Nat) : (bigEndian width n).length = width := by
  induction width generalizing n with
  | zero => rfl
  | succ width ih => rw [bigEndian, List.length_append, ih, List.length_singleton]

theorem beNat_bigEndian (width n : Nat) : beNat (bigEndian width n) = n % 256 ^ width := by
  induction width generalizing n with
  | zero => rw [Nat.pow_zero, Nat.mod_one, bigEndian, beNat, List.foldl_nil]
  | succ width ih =>
    have hbyte : (UInt8.ofNat n).toNat = n % 256 := UInt8.toNat_ofNat'
    rw [bigEndian, beNat_concat, ih, hbyte, Nat.pow_succ', Nat.mod_mul, Nat.mul_comm, Nat.add_comm]

theorem beNat_zero_cons (b : Bytes) : beNat (0 :: b) = beNat b := by
  simp [beNat]

theorem beNat_lt (b : Bytes) : beNat b < 256 ^ b.length := by
  induction b using List.reverseRecOn with
  | nil => exact Nat.one_pos
  | append_singleton b x ih =>
    have hx : x.toNat < 256 := x.toNat_lt
    rw [beNat_concat, List.length_append, List.length_singleton, Nat.pow_succ]
    omega

theorem bigEndian_beNat (b : Bytes) : bigEndian b.length (beNat b) = b := by
  induction b using List.reverseRecOn with
  | nil => rfl
  | append_singleton b x ih =>
    have hx : x.toNat < 256 := x.toNat_lt
    have hbefore : beNat (b ++ [x]) / 256 = beNat b := by
      rw [beNat_concat]
      omega
    have hlast : UInt8.ofNat (beNat (b ++ [x])) = x := by
      rw [← UInt8.toNat_inj, UInt8.toNat_ofNat', beNat_concat]
      omega
    rw [List.length_append, List.length_singleton, bigEndian, hbefore, hlast, ih]

/-- `binary.BigEndian.PutUint64(b, n)`, the bytes that it puts. -/
def putUint64 (n : UInt64) : Bytes := bigEndian 8 n.toNat

theorem length_putUint64 (n : UInt64) : (putUint64 n).length = 8 := length_bigEndian 8 n.toNat

theorem beNat_putUint64 (n : UInt64) : beNat (putUint64 n) = n.toNat := by
  have hlt : n.toNat < 256 ^ 8 := n.toNat_lt
  rw [putUint64, beNat_bigEndian, Nat.mod_eq_of_lt hlt]

end Dockerset.Go

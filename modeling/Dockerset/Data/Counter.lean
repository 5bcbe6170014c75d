import Mathlib.Data.BitVec
import Mathlib.Data.List.Chain

/-!
# Counters that come round

A counter of `w` bits is read from time to time. `ahead` is the way from one
reading to the next, and `unwrap` adds the ways up. A reading relative to the
first one forgets the full rounds in between: such readings are in order exactly
as long as the first round lasts.
-/

namespace Dockerset.Data

variable {w : Nat}

/-- How far the counter goes from one reading to the next, if that is less than a
full round. -/
def ahead (a b : BitVec w) : Nat := (b - a).toNat

/-- How far it has gone in all at each reading, with `total` at the reading `last`. -/
def unwrap (total : Nat) (last : BitVec w) : List (BitVec w) → List Nat
  | [] => []
  | b :: bs => (total + ahead last b) :: unwrap (total + ahead last b) b bs

theorem ahead_lt (a b : BitVec w) : ahead a b < 2 ^ w := (b - a).isLt

@[simp] theorem ahead_self (a : BitVec w) : ahead a a = 0 := by
  simp [ahead]

theorem ahead_trans (a b c : BitVec w) : ahead a c = (ahead a b + ahead b c) % 2 ^ w := by
  have hway : c - a = (b - a) + (c - b) := (sub_add_sub_cancel' b a c).symm
  rw [ahead, hway, BitVec.toNat_add]
  rfl

theorem map_ahead {origin last : BitVec w} {total : Nat} (h : ahead origin last = total % 2 ^ w)
    (bs : List (BitVec w)) :
    bs.map (ahead origin) = (unwrap total last bs).map (· % 2 ^ w) := by
  induction bs generalizing total last with
  | nil => rfl
  | cons b bs ih =>
    have hb : ahead origin b = (total + ahead last b) % 2 ^ w := by
      rw [ahead_trans origin last b, h, Nat.mod_add_mod]
    rw [List.map_cons, unwrap, List.map_cons, ih hb, hb]

/-- **What is left is in order as long as the first round lasts**: the reading that
completes it is behind the one before. -/
theorem isChain_mod_unwrap {total : Nat} (htotal : total < 2 ^ w) (last : BitVec w)
    (bs : List (BitVec w)) :
    (total :: unwrap total last bs).IsChain (fun d e => d % 2 ^ w ≤ e % 2 ^ w) ↔
      ∀ e ∈ unwrap total last bs, e < 2 ^ w := by
  induction bs generalizing total last with
  | nil => simp [unwrap]
  | cons b bs ih =>
    have hway := ahead_lt last b
    rw [unwrap, List.isChain_cons_cons, List.forall_mem_cons]
    by_cases hround : total + ahead last b < 2 ^ w
    · have hstep : total % 2 ^ w ≤ (total + ahead last b) % 2 ^ w := by
        rw [Nat.mod_eq_of_lt htotal, Nat.mod_eq_of_lt hround]
        omega
      rw [ih hround b]
      exact and_congr (iff_of_true hstep hround) Iff.rfl
    · -- the way is shorter than a round, so the reading falls back
      have hrest : (total + ahead last b) % 2 ^ w = total + ahead last b - 2 ^ w := by
        rw [Nat.mod_eq_sub_mod (by omega), Nat.mod_eq_of_lt (by omega)]
      have hback : ¬ total % 2 ^ w ≤ (total + ahead last b) % 2 ^ w := by
        rw [Nat.mod_eq_of_lt htotal, hrest]
        omega
      exact iff_of_false (fun h => hback h.1) (fun h => hround h.1)

end Dockerset.Data

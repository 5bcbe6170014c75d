import Dockerset.Go.Bytes
import Mathlib.Data.List.DropRight

/-!
# Base64

Three bytes are four digits of six bits. `encode` pads the last group with `=`. The
lenient decoder skips every byte that is no digit, and drops what is left of an
incomplete byte at the end; the forgiving one, of browsers, skips white space only and
refuses other bytes and lengths that no encoding has. Both give back what was encoded.
-/

namespace Dockerset.Data.Base64
open Go

/-! ## Digits -/

/-- The digit for six bits. -/
def digit (n : Nat) : UInt8 :=
  if n < 26 then UInt8.ofNat (0x41 + n)
  else if n < 52 then UInt8.ofNat (0x61 + (n - 26))
  else if n < 62 then UInt8.ofNat (0x30 + (n - 52))
  else if n = 62 then 0x2b
  else 0x2f

/-- The six bits of a digit. -/
def value? (c : UInt8) : Option Nat :=
  if 0x41 ≤ c ∧ c ≤ 0x5a then some (c.toNat - 0x41)
  else if 0x61 ≤ c ∧ c ≤ 0x7a then some (c.toNat - 0x61 + 26)
  else if 0x30 ≤ c ∧ c ≤ 0x39 then some (c.toNat - 0x30 + 52)
  else if c = 0x2b then some 62
  else if c = 0x2f then some 63
  else none

theorem value?_digit {n : Nat} (h : n < 64) : value? (digit n) = some n := by
  have all : ∀ n < 64, value? (digit n) = some n := by decide
  exact all n h

/-! ## Groups -/

/-- The six bits of each digit, most significant first; the last digit has zeros for the
bits that are not there. -/
def sextets : Bytes → List Nat
  | a :: b :: c :: rest =>
    a.toNat / 4 :: (a.toNat % 4 * 16 + b.toNat / 16) :: (b.toNat % 16 * 4 + c.toNat / 64) ::
      c.toNat % 64 :: sextets rest
  | [a, b] => [a.toNat / 4, a.toNat % 4 * 16 + b.toNat / 16, b.toNat % 16 * 4]
  | [a] => [a.toNat / 4, a.toNat % 4 * 16]
  | [] => []

/-- The bytes of the digits. -/
def pack : List Nat → Bytes
  | a :: b :: c :: d :: rest =>
    UInt8.ofNat (a * 4 + b / 16) :: UInt8.ofNat (b % 16 * 16 + c / 4) ::
      UInt8.ofNat (c % 4 * 64 + d) :: pack rest
  | [a, b, c] => [UInt8.ofNat (a * 4 + b / 16), UInt8.ofNat (b % 16 * 16 + c / 4)]
  | [a, b] => [UInt8.ofNat (a * 4 + b / 16)]
  | _ => []

/-- How many `=` the last group needs. -/
def padding (length : Nat) : Nat := (3 - length % 3) % 3

def encode (b : Bytes) : Bytes := (sextets b).map digit ++ List.replicate (padding b.length) 0x3d

theorem sextets_lt (b : Bytes) : ∀ n ∈ sextets b, n < 64 := by
  induction b using sextets.induct with
  | case1 a b c rest ih =>
    have ha : a.toNat < 256 := a.toNat_lt
    have hb : b.toNat < 256 := b.toNat_lt
    have hc : c.toNat < 256 := c.toNat_lt
    simp only [sextets, List.forall_mem_cons]
    exact ⟨by omega, by omega, by omega, by omega, ih⟩
  | case2 a b =>
    have ha : a.toNat < 256 := a.toNat_lt
    have hb : b.toNat < 256 := b.toNat_lt
    simp only [sextets, List.forall_mem_cons]
    exact ⟨by omega, by omega, by omega, List.forall_mem_nil _⟩
  | case3 a =>
    have ha : a.toNat < 256 := a.toNat_lt
    simp only [sextets, List.forall_mem_cons]
    exact ⟨by omega, by omega, List.forall_mem_nil _⟩
  | case4 => exact List.forall_mem_nil _

theorem ofNat_eq {n : Nat} {a : UInt8} (h : n = a.toNat) : UInt8.ofNat n = a := by
  rw [h, UInt8.ofNat_toNat]

theorem pack_sextets (b : Bytes) : pack (sextets b) = b := by
  induction b using sextets.induct with
  | case1 a b c rest ih =>
    have ha : a.toNat < 256 := a.toNat_lt
    have hb : b.toNat < 256 := b.toNat_lt
    have hc : c.toNat < 256 := c.toNat_lt
    rw [sextets, pack, ih, ofNat_eq (a := a) (by omega), ofNat_eq (a := b) (by omega),
      ofNat_eq (a := c) (by omega)]
  | case2 a b =>
    have ha : a.toNat < 256 := a.toNat_lt
    have hb : b.toNat < 256 := b.toNat_lt
    rw [sextets, pack, ofNat_eq (a := a) (by omega), ofNat_eq (a := b) (by omega)]
  | case3 a =>
    have ha : a.toNat < 256 := a.toNat_lt
    rw [sextets, pack, ofNat_eq (a := a) (by omega)]
  | case4 => rfl

/-! ## The lenient decoder -/

def decodeLenient (s : Bytes) : Bytes := pack (s.filterMap value?)

/-! ## The forgiving decoder -/

/-- White space of ASCII. -/
def isSpace (c : UInt8) : Bool := c == 0x09 || c == 0x0a || c == 0x0c || c == 0x0d || c == 0x20

/-- The reversed text without one or two `=` in front. -/
def dropPad : Bytes → Bytes
  | [] => []
  | c :: s => if c = 0x3d then (if s.head? = some 0x3d then s.tail else s) else c :: s

/-- Without one or two `=` at the end. -/
def stripPad (s : Bytes) : Bytes := (dropPad s.reverse).reverse

/-- The decoder of browsers; `none` where it throws. -/
def decodeForgiving (s : Bytes) : Option Bytes :=
  let s := s.filter fun c => !isSpace c
  let s := if s.length % 4 = 0 then stripPad s else s
  if s.length % 4 = 1 then none else (s.mapM value?).map pack

theorem padding_le (n : Nat) : padding n ≤ 2 := by
  unfold padding
  omega

/-- With its padding an encoding is made of whole groups; the digits alone never end one
digit into a group. -/
theorem length_sextets (b : Bytes) :
    ((sextets b).length + padding b.length) % 4 = 0 ∧ (sextets b).length % 4 ≠ 1 := by
  induction b using sextets.induct with
  | case1 a b c rest ih =>
    have hpad : padding (rest.length + 1 + 1 + 1) = padding rest.length := by
      unfold padding
      omega
    simp only [sextets, List.length_cons, hpad]
    omega
  | case2 a b => simp [sextets, padding]
  | case3 a => simp [sextets, padding]
  | case4 => simp [sextets, padding]

theorem digit_ne_pad {n : Nat} (h : n < 64) : digit n ≠ 0x3d := by
  have all : ∀ n < 64, digit n ≠ 0x3d := by decide
  exact all n h

theorem isSpace_digit {n : Nat} (h : n < 64) : isSpace (digit n) = false := by
  have all : ∀ n < 64, isSpace (digit n) = false := by decide
  exact all n h

theorem dropPad_replicate {s : Bytes} {n : Nat} (hn : n ≤ 2) (hs : s.head? ≠ some 0x3d) :
    dropPad (List.replicate n 0x3d ++ s) = s := by
  have hcases : n = 0 ∨ n = 1 ∨ n = 2 := by omega
  rcases hcases with rfl | rfl | rfl
  · cases s with
    | nil => rfl
    | cons c s =>
      have hc : c ≠ 0x3d := by
        intro heq
        exact hs (by rw [heq]; rfl)
      exact if_neg hc
  · rw [List.replicate_one, List.singleton_append, dropPad, if_pos rfl, if_neg hs]
  · rfl

theorem stripPad_encode (b : Bytes) : stripPad (encode b) = (sextets b).map digit := by
  have hlast : ((sextets b).map digit).reverse.head? ≠ some 0x3d := by
    intro h
    obtain ⟨n, hn, hdigit⟩ := List.mem_map.1 (List.mem_reverse.1 (List.mem_of_mem_head? h))
    exact digit_ne_pad (sextets_lt b n hn) hdigit
  rw [stripPad, encode, List.reverse_append, List.reverse_replicate,
    dropPad_replicate (padding_le _) hlast, List.reverse_reverse]

theorem mapM_digits {l : List Nat} (h : ∀ n ∈ l, n < 64) : (l.map digit).mapM value? = some l := by
  induction l with
  | nil => rfl
  | cons n l ih =>
    obtain ⟨hn, hl⟩ := List.forall_mem_cons.1 h
    rw [List.map_cons, List.mapM_cons, value?_digit hn, ih hl]
    rfl

theorem filter_encode (b : Bytes) : (encode b).filter (fun c => !isSpace c) = encode b := by
  rw [List.filter_eq_self]
  intro c hc
  rcases List.mem_append.1 hc with hdigit | hpad
  · obtain ⟨n, hn, rfl⟩ := List.mem_map.1 hdigit
    rw [isSpace_digit (sextets_lt b n hn)]
    rfl
  · rw [List.eq_of_mem_replicate hpad]
    rfl

/-- An encoding is decoded, with white space anywhere in it. -/
theorem decodeForgiving_of_filter {s b : Bytes} (h : s.filter (fun c => !isSpace c) = encode b) :
    decodeForgiving s = some b := by
  obtain ⟨hlen, hmod⟩ := length_sextets b
  have hencode : (encode b).length % 4 = 0 := by
    rw [encode, List.length_append, List.length_map, List.length_replicate]
    exact hlen
  unfold decodeForgiving
  rw [h]
  dsimp only
  rw [if_pos hencode, stripPad_encode, List.length_map, if_neg hmod, mapM_digits (sextets_lt b),
    Option.map_some, pack_sextets]

end Dockerset.Data.Base64

import Dockerset.Go.BigEndian

/-!
# Reading DER

An element is a tag, the length of its contents and the contents. The readers take
elements from the front of a text and return what follows. Integers are in two's
complement and may have no leading octet that they do not need; object identifiers
are read into their arcs.
-/

namespace Dockerset.Data.Der
open Go

/-- A length, short or long. -/
def readLength : Bytes → Option (Nat × Bytes)
  | [] => none
  | c :: rest =>
    if c < 0x80 then some (c.toNat, rest)
    else
      let octets := c.toNat - 0x80
      if rest.length < octets then none else some (beNat (rest.take octets), rest.drop octets)

/-- The contents of an element with this tag, and what follows it. -/
def readElement (tag : UInt8) : Bytes → Option (Bytes × Bytes)
  | [] => none
  | c :: rest =>
    if c ≠ tag then none
    else (readLength rest).bind fun (length, rest) =>
      if rest.length < length then none else some (rest.take length, rest.drop length)

/-- The contents of an element with nothing behind it. -/
def readOnly (tag : UInt8) (s : Bytes) : Option Bytes :=
  (readElement tag s).bind fun (contents, rest) => if rest = [] then some contents else none

/-- A non-negative integer, from the contents of its element. -/
def readUnsigned : Bytes → Option Nat
  | [] => none
  | [c] => if c < 0x80 then some c.toNat else none
  | c :: d :: rest =>
    -- negative, or an octet too long
    if 0x80 ≤ c ∨ (c = 0 ∧ d < 0x80) then none else some (beNat (c :: d :: rest))

/-- The arcs that follow, seven bits at a time. -/
def readArcs (arc : Nat) : Bytes → List Nat
  | [] => []
  | c :: rest =>
    let arc := arc * 128 + c.toNat % 128
    if c < 0x80 then arc :: readArcs 0 rest else readArcs arc rest

/-- The arcs of an object identifier, from the contents of its element. The first octet
holds two of them. -/
def readOid : Bytes → List Nat
  | [] => []
  | c :: rest => c.toNat / 40 :: c.toNat % 40 :: readArcs 0 rest

variable {tag : UInt8} {octets contents rest : Bytes}

theorem readElement_cons
    (h : readLength (octets ++ (contents ++ rest)) = some (contents.length, contents ++ rest)) :
    readElement tag (tag :: (octets ++ (contents ++ rest))) = some (contents, rest) := by
  rw [readElement, if_neg (not_not.2 rfl), h, Option.bind_some]
  dsimp only
  rw [if_neg (by rw [List.length_append]; omega), List.take_left, List.drop_left]

theorem readOnly_of_readElement {s : Bytes} (h : readElement tag s = some (contents, [])) :
    readOnly tag s = some contents := by
  rw [readOnly, h]
  rfl

theorem readLength_short {n : Nat} (h : n < 0x80) : readLength (UInt8.ofNat n :: rest) = some (n, rest) := by
  have hn : (UInt8.ofNat n).toNat = n := by
    rw [UInt8.toNat_ofNat']
    omega
  have hlt : UInt8.ofNat n < 0x80 := by
    rw [UInt8.lt_iff_toNat_lt, hn]
    exact h
  rw [readLength, if_pos hlt, hn]

theorem readLength_long {n width : Nat} (hn : n < 256 ^ width) (hwidth : width < 0x80) :
    readLength (UInt8.ofNat (0x80 + width) :: (bigEndian width n ++ rest)) = some (n, rest) := by
  have hw : (UInt8.ofNat (0x80 + width)).toNat = 0x80 + width := by
    rw [UInt8.toNat_ofNat']
    omega
  have hge : ¬ UInt8.ofNat (0x80 + width) < 0x80 := by
    rw [UInt8.lt_iff_toNat_lt, hw]
    change ¬ 0x80 + width < 0x80
    omega
  rw [readLength, if_neg hge, hw, Nat.add_sub_cancel_left]
  dsimp only
  rw [if_neg (by rw [List.length_append, length_bigEndian]; omega), List.take_left' (length_bigEndian _ _),
    List.drop_left' (length_bigEndian _ _), beNat_bigEndian, Nat.mod_eq_of_lt hn]

end Dockerset.Data.Der

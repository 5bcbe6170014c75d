import Dockerset.Go.Bytes
import Dockerset.Go.Strings

/-!
# Text in byte strings

`strings.ToLower` and `strings.TrimSpace` work on the characters that a string
encodes in UTF-8. Bytes that encode none count as U+FFFD, one at a time, and
`ToLower` writes that character in their place. How it maps letters outside
ASCII is a parameter: the tables of package `unicode` are not modelled.
-/

namespace Dockerset.Go

/-- `utf8.RuneError`. -/
def runeError : Char := Char.ofNat 0xfffd

/-- The value of a continuation byte. -/
def contBits (x : UInt8) : Nat := x.toNat % 64

/-- `utf8.DecodeRune` of `b :: rest`: the character and its length. The second
byte is held to a narrower range after some first bytes, which leaves out
overlong forms and surrogates. -/
def decodeRune (b : UInt8) (rest : Bytes) : Char × Nat :=
  let within (lo hi : UInt8) (x : UInt8) : Bool := decide (lo ≤ x) && decide (x ≤ hi)
  if b < 0x80 then (Char.ofNat b.toNat, 1)
  else if within 0xc2 0xdf b then
    match rest with
    | x :: _ =>
      if within 0x80 0xbf x then (Char.ofNat (b.toNat % 32 * 64 + contBits x), 2) else (runeError, 1)
    | _ => (runeError, 1)
  else if within 0xe0 0xef b then
    match rest with
    | x :: y :: _ =>
      if within (if b = 0xe0 then 0xa0 else 0x80) (if b = 0xed then 0x9f else 0xbf) x &&
          within 0x80 0xbf y then
        (Char.ofNat ((b.toNat % 16 * 64 + contBits x) * 64 + contBits y), 3)
      else (runeError, 1)
    | _ => (runeError, 1)
  else if within 0xf0 0xf4 b then
    match rest with
    | x :: y :: z :: _ =>
      if within (if b = 0xf0 then 0x90 else 0x80) (if b = 0xf4 then 0x8f else 0xbf) x &&
          within 0x80 0xbf y && within 0x80 0xbf z then
        (Char.ofNat (((b.toNat % 8 * 64 + contBits x) * 64 + contBits y) * 64 + contBits z), 4)
      else (runeError, 1)
    | _ => (runeError, 1)
  else (runeError, 1)

/-- The characters of a string (`for _, c := range s`). -/
def runes : Bytes → List Char
  | [] => []
  | b :: rest => (decodeRune b rest).1 :: runes (rest.drop ((decodeRune b rest).2 - 1))
termination_by s => s.length
decreasing_by
  simp only [List.length_drop, List.length_cons]
  omega

/-- `asciiLower` on a byte. -/
def lowerByte (x : UInt8) : UInt8 := if 0x41 ≤ x ∧ x ≤ 0x5a then x + 32 else x

/-- `strings.ToLower`, where `lower` is `unicode.ToLower` outside ASCII. -/
def toLower (lower : Char → Char) (s : Bytes) : Bytes :=
  if s.all (· < 0x80) then s.map lowerByte
  else (runes s).flatMap fun c =>
    String.utf8EncodeChar (if c.toNat < 0x80 then asciiLower c else lower c)

/-- The encodings of the characters that `unicode.IsSpace` accepts. -/
def spaces : List Bytes :=
  [0x09, 0x0a, 0x0b, 0x0c, 0x0d, 0x20, 0x85, 0xa0, 0x1680, 0x2000, 0x2001, 0x2002, 0x2003, 0x2004,
    0x2005, 0x2006, 0x2007, 0x2008, 0x2009, 0x200a, 0x2028, 0x2029, 0x202f, 0x205f, 0x3000].map
    fun n => String.utf8EncodeChar (Char.ofNat n)

/-- Take the strings of `seps` off the front, as often as the fuel allows. -/
def trimLeft (seps : List Bytes) : Nat → Bytes → Bytes
  | 0, s => s
  | fuel + 1, s =>
    match seps.find? (·.isPrefixOf s) with
    | none => s
    | some e => trimLeft seps fuel (s.drop e.length)

/-- `strings.TrimSpace`. -/
def trimSpaceBytes (s : Bytes) : Bytes :=
  let t := trimLeft spaces s.length s
  (trimLeft (spaces.map List.reverse) t.length t.reverse).reverse

/-- `strings.TrimPrefix(s, prefix)`. -/
def trimPre (s pre : Bytes) : Bytes := if pre.isPrefixOf s then s.drop pre.length else s

/-- The bytes of a string literal. -/
def ascii (s : String) : Bytes := s.toList.map fun c => UInt8.ofNat c.toNat

example : trimSpaceBytes (ascii " a b\r\n") = ascii "a b" ∧
    trimSpaceBytes (0xc2 :: 0xa0 :: 0x61 :: [0xe3, 0x80, 0x80]) = [0x61] ∧
    toLower id (ascii "Ab" ++ [0xc3]) = ascii "ab" ++ [0xef, 0xbf, 0xbd] := by decide +kernel

end Dockerset.Go

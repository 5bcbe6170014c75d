import Dockerset.Data.Base64
import Dockerset.Go.FilePath
import Dockerset.Go.Window
import Dockerset.Logic.EState
import Dockerset.PhpLang.Value
import Mathlib.Data.Nat.Bitwise

/-!
# Reading from a buffer (`WebAuthn/Binary/ByteBuffer.php`)

The readers take an offset and check it against the length of the data. Offsets
and lengths are never negative where they are called, so they are natural numbers
and the checks for it are left out; integers of PHP have 64 bits.
-/

namespace Dockerset.WebauthnData
open Go PhpLang Logic Data

/-- Why a call of the library does not return. -/
inductive Stop where
  /-- an exception, with its message -/
  | exception (message : Str)
  /-- the calls are nested too deeply -/
  | stack
deriving DecidableEq

namespace ByteBuffer

/-- `getBytes($offset, $length)`. -/
def getBytes (data : Bytes) (offset length : Nat) : Except Stop Bytes :=
  if data.length < offset + length then
    .error (.exception "ByteBuffer: Invalid offset or length")
  else .ok ((data.drop offset).take length)

/-- `unpack(…, $this->_data, $offset)` of a number of this width, after the check of the
offset. -/
def unpackAt (width : Nat) (data : Bytes) (offset : Nat) : Except Stop Nat :=
  if data.length < offset + width then .error (.exception "ByteBuffer: Invalid offset")
  else .ok (beNat ((data.drop offset).take width))

/-- A number that has become negative as a signed integer is refused. -/
def inRange (val : Nat) : Except Stop Nat :=
  if 2 ^ 63 ≤ val then .error (.exception "ByteBuffer: Value out of integer range.") else .ok val

/-- `getByteVal($offset)`. -/
def getByteVal (data : Bytes) (offset : Nat) : Except Stop Nat := unpackAt 1 data offset

/-- `getUint16Val($offset)`. -/
def getUint16Val (data : Bytes) (offset : Nat) : Except Stop Nat := unpackAt 2 data offset

/-- `getUint32Val($offset)`. -/
def getUint32Val (data : Bytes) (offset : Nat) : Except Stop Nat := unpackAt 4 data offset >>= inRange

/-- `getUint64Val($offset)`. -/
def getUint64Val (data : Bytes) (offset : Nat) : Except Stop Nat := unpackAt 8 data offset >>= inRange

/-- The number that `getHalfFloatVal` computes from 16 bits. -/
def halfFloat (half : Nat) : Value :=
  let exp := half >>> 10 &&& 0x1f
  let mant := half &&& 0x3ff
  let val : Value :=
    if exp = 0 then .timesTwoPow mant (-24)
    else if exp ≠ 31 then .timesTwoPow (mant + 1024) (exp - 25)
    else .float (if mant = 0 then .inf false else .nan)
  if half &&& 0x8000 ≠ 0 then val.negate else val

/-- `getHalfFloatVal($offset)`. -/
def getHalfFloatVal (data : Bytes) (offset : Nat) : Except Stop Value :=
  halfFloat <$> getUint16Val data offset

/-- `getFloatVal($offset)`. -/
def getFloatVal (data : Bytes) (offset : Nat) : Except Stop Value :=
  (fun bits => .float (Double.ofBits 8 23 bits)) <$> unpackAt 4 data offset

/-- `getDoubleVal($offset)`. -/
def getDoubleVal (data : Bytes) (offset : Nat) : Except Stop Value :=
  (fun bits => .float (Double.ofBits 11 52 bits)) <$> unpackAt 8 data offset

/-! ## What the readers return -/

variable {data : Bytes} {offset length width : Nat}

theorem getBytes_ok_iff {b : Bytes} :
    getBytes data offset length = .ok b ↔ Window data offset b ∧ b.length = length := by
  unfold getBytes
  constructor
  · intro h
    split at h
    · cases h
    · next hle =>
      cases h
      exact ⟨window_take_drop (by omega), by rw [List.length_take, List.length_drop]; omega⟩
  · rintro ⟨hw, rfl⟩
    have hle := hw.le
    rw [if_neg (by omega), hw.drop_take]

theorem unpackAt_ok_iff {n : Nat} :
    unpackAt width data offset = .ok n ↔ Window data offset (bigEndian width n) ∧ n < 256 ^ width := by
  unfold unpackAt
  constructor
  · intro h
    split at h
    · cases h
    · next hle =>
      cases h
      have hlen : ((data.drop offset).take width).length = width := by
        rw [List.length_take, List.length_drop]
        omega
      have hspell := bigEndian_beNat ((data.drop offset).take width)
      have hlt := beNat_lt ((data.drop offset).take width)
      rw [hlen] at hspell hlt
      rw [hspell]
      exact ⟨window_take_drop (by omega), hlt⟩
  · rintro ⟨hw, hlt⟩
    have hle := hw.le
    have htake := hw.drop_take
    rw [length_bigEndian] at hle htake
    rw [if_neg (by omega), htake, beNat_bigEndian, Nat.mod_eq_of_lt hlt]

theorem inRange_bind_iff {x : Except Stop Nat} {n : Nat} :
    x >>= inRange = .ok n ↔ x = .ok n ∧ n < 2 ^ 63 := by
  rw [except_bind_iff]
  unfold inRange
  constructor
  · rintro ⟨m, hx, hm⟩
    split at hm
    · cases hm
    · cases hm
      exact ⟨hx, by omega⟩
  · rintro ⟨hx, hlt⟩
    exact ⟨n, hx, if_neg (by omega)⟩

/-- The computed number is the one of the half precision format. -/
theorem halfFloat_eq (half : Nat) : halfFloat half = .ofDouble (Double.ofBits 5 10 half) := by
  have hexp : half >>> 10 &&& 0x1f = half / 2 ^ 10 % 2 ^ 5 := by
    rw [Nat.shiftRight_eq_div_pow]
    exact Nat.and_two_pow_sub_one_eq_mod _ 5
  have hmant : half &&& 0x3ff = half % 2 ^ 10 := Nat.and_two_pow_sub_one_eq_mod _ 10
  have hbit : half &&& 0x8000 = (decide (half / 2 ^ (10 + 5) % 2 = 1)).toNat * 2 ^ 15 := by
    rw [← Nat.testBit_eq_decide_div_mod_eq]
    exact Nat.and_two_pow half 15
  have hsign : half &&& 0x8000 ≠ 0 ↔ half / 2 ^ (10 + 5) % 2 = 1 := by
    rw [hbit]
    by_cases hodd : half / 2 ^ (10 + 5) % 2 = 1
    · rw [decide_eq_true hodd]
      exact ⟨fun _ => hodd, fun _ => by decide⟩
    · rw [decide_eq_false hodd]
      exact ⟨fun h => absurd rfl h, fun h => absurd h hodd⟩
  have hunit : ∀ exp : Nat, (exp : Int) - (2 ^ (5 - 1) - 1 : Int) - (10 : Nat) = exp - 25 := by
    intro exp
    change (exp : Int) - 15 - 10 = exp - 25
    omega
  have htop : (2 ^ 5 - 1 : Nat) = 31 := rfl
  unfold halfFloat Double.ofBits
  simp only [hexp, hmant, hsign, hunit, htop]
  by_cases hz : half / 2 ^ 10 % 2 ^ 5 = 0
  · rw [if_pos hz, if_pos hz, hz]
    split <;> rfl
  · rw [if_neg hz, if_neg hz]
    by_cases hfinite : half / 2 ^ 10 % 2 ^ 5 ≠ 31
    · rw [if_pos hfinite, if_pos hfinite]
      split <;> rfl
    · rw [if_neg hfinite, if_neg hfinite]
      by_cases hmantissa : half % 2 ^ 10 = 0
      · rw [if_pos hmantissa]
        split <;> rfl
      · rw [if_neg hmantissa]
        split <;> rfl

-- 1024.0 and 0.5
example : halfFloat 0x6400 = .int 1024 ∧ halfFloat 0xb800 = .float (.finite true 1024 (-11)) :=
  ⟨rfl, rfl⟩

/-! ## The URL form of base64 -/

/-- `strtr($c, '-_', '+/')`. -/
def ofUrl (c : UInt8) : UInt8 := if c = 0x2d then 0x2b else if c = 0x5f then 0x2f else c

/-- `_base64url_decode($data)`. -/
def base64urlDecode (data : Bytes) : Bytes :=
  Base64.decodeLenient (data.map ofUrl ++ List.replicate (3 - (3 + data.length) % 4) 0x3d)

/-- `fromBase64Url($base64url)`. The decoder never fails, so there is no exception. -/
def fromBase64Url (base64url : Bytes) : Bytes := base64urlDecode base64url

end ByteBuffer

end Dockerset.WebauthnData

import Dockerset.Data.InsertionMap
import Dockerset.Go.BigEndian
import Mathlib.Algebra.Group.Int.Defs

/-!
# Values of PHP

The values that a decoder can return, with the two conversions that the language
makes without being asked: a string key of an array that spells an integer is that
integer, and `==` compares values of different types. Arrays are ordered maps; a
list is an array with the keys `0`, `1`, and so on. Integers have 64 bits.

A float is kept exactly, as a multiple of a power of two.
-/

namespace Dockerset.PhpLang
open Go Data

/-! ## Floats -/

inductive Double where
  /-- the number `± mantissa * 2 ^ exponent` -/
  | finite (negative : Bool) (mantissa : Nat) (exponent : Int)
  | inf (negative : Bool)
  | nan
deriving DecidableEq

namespace Double

/-- `-$x`. -/
def neg : Double → Double
  | finite negative mantissa exponent => finite (!negative) mantissa exponent
  | inf negative => inf (!negative)
  | nan => nan

/-- The float with these bits, for `mantBits` bits of mantissa below `expBits` bits of
exponent (`unpack('G', …)` and `unpack('E', …)`). -/
def ofBits (expBits mantBits bits : Nat) : Double :=
  let mantissa := bits % 2 ^ mantBits
  let exponent := bits / 2 ^ mantBits % 2 ^ expBits
  -- the exponent of the last bit of the mantissa
  let unit : Int := exponent - (2 ^ (expBits - 1) - 1 : Int) - mantBits
  let magnitude :=
    if exponent = 0 then finite false mantissa (unit + 1)
    else if exponent ≠ 2 ^ expBits - 1 then finite false (mantissa + 2 ^ mantBits) unit
    else if mantissa = 0 then inf false
    else nan
  if bits / 2 ^ (mantBits + expBits) % 2 = 1 then magnitude.neg else magnitude

/-- `$x == $n`. -/
def eqInt : Double → Int → Bool
  | finite negative mantissa exponent, n =>
    let signed : Int := if negative then -mantissa else mantissa
    signed * 2 ^ exponent.toNat == n * 2 ^ (-exponent).toNat
  | _, _ => false

end Double

/-! ## Keys of arrays -/

inductive Key where
  | int (n : Int)
  | str (s : Bytes)
deriving DecidableEq

/-- The number that decimal digits without a leading zero spell. -/
def positiveDecimal (s : Bytes) : Option Nat :=
  if s.head? ≠ none ∧ s.head? ≠ some 0x30 ∧ s.all fun c => 0x30 ≤ c ∧ c ≤ 0x39 then
    some (s.foldl (fun n c => n * 10 + (c.toNat - 0x30)) 0)
  else none

/-- The integer that a string key stands for. -/
def integerKey (s : Bytes) : Option Int :=
  if s = [0x30] then some 0
  else if s.head? = some 0x2d then
    ((positiveDecimal s.tail).filter (· ≤ 2 ^ 63)).map fun n => -(n : Int)
  else ((positiveDecimal s).filter (· < 2 ^ 63)).map fun n => (n : Int)

/-- The key of `$array[$s]` for a string. -/
def stringKey (s : Bytes) : Key :=
  match integerKey s with
  | some n => .int n
  | none => .str s

/-! ## Values -/

inductive Value where
  | null
  | bool (b : Bool)
  | int (n : Int)
  | float (x : Double)
  | text (s : Bytes)
  /-- an object that holds bytes -/
  | buffer (b : Bytes)
  | array (entries : List (Key × Value))

namespace Value

/-- `$m * 2 ** $n`: an integer as long as the exponent is not negative. -/
def timesTwoPow (m : Nat) (n : Int) : Value :=
  if 0 ≤ n then int (m * 2 ^ n.toNat) else float (.finite false m n)

/-- `-$x` of a number. -/
def negate : Value → Value
  | int n => int (-n)
  | float x => float x.neg
  | x => x

/-- The number that a float stands for, as arithmetic gives it: without negative powers of
two it is an integer. -/
def ofDouble : Double → Value
  | .finite negative mantissa exponent =>
    if negative then (timesTwoPow mantissa exponent).negate else timesTwoPow mantissa exponent
  | x => float x

/-- `is_array($x)`. -/
def isArray : Value → Bool
  | array _ => true
  | _ => false

/-- The key of `$array[$x]`, where `$x` is an integer or a string. -/
def asKey : Value → Option Key
  | int n => some (.int n)
  | text s => some (stringKey s)
  | _ => none

end Value

/-- `$array[] = $value` of a list. -/
def push (entries : List (Key × Value)) (value : Value) : List (Key × Value) :=
  entries ++ [(.int entries.length, value)]

/-- The entry with a key. -/
def lookup (entries : List (Key × Value)) (key : Key) : Option Value :=
  (entries.find? fun e => e.1 = key).map Prod.snd

end Dockerset.PhpLang

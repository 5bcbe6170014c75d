import Dockerset.Go.Strings
import Dockerset.WebauthnData.ByteBuffer

/-!
# Decoding CBOR (`WebAuthn/CBOR/CborDecoder.php`)

`_parseItem` reads the first byte of an item, its argument and, for arrays, maps
and tags, the items inside, and moves the offset along. Here the offset is passed
and returned, and the loops over the items take the reader of one item as an
argument. How deeply `_parseItem` may call itself is a parameter; each level takes a
byte of the buffer, so that a buffer of `n` bytes never needs more than `n + 1`.

`Item` is the syntax of CBOR as the decoder knows it, with the width that each
argument is written in.
-/

namespace Dockerset.WebauthnData.Cbor
open Go PhpLang Data

/-! ## The decoder -/

/-- `_parseSimple($val)`. -/
def parseSimple (val : Nat) : Except Stop Value :=
  if val = 20 then .ok (.bool false)
  else if val = 21 then .ok (.bool true)
  else if val = 22 then .ok .null
  else .error (.exception (("Unsupported simple value " : Str) ++ decimal val ++ ['.']))

/-- `_parseFloatSimple($val, $buf, $offset)`. -/
def parseFloatSimple (val : Nat) (buf : Bytes) (offset : Nat) : Except Stop (Value × Nat) :=
  match val with
  | 24 => do
    let val ← ByteBuffer.getByteVal buf offset
    return (← parseSimple val, offset + 1)
  | 25 => do return (← ByteBuffer.getHalfFloatVal buf offset, offset + 2)
  | 26 => do return (← ByteBuffer.getFloatVal buf offset, offset + 4)
  | 27 => do return (← ByteBuffer.getDoubleVal buf offset, offset + 8)
  | 28 | 29 | 30 => .error (.exception "Reserved value used.")
  | 31 => .error (.exception "Indefinite length is not supported.")
  | val => do return (← parseSimple val, offset)

/-- `_parseExtraLength($val, $buf, $offset)`. -/
def parseExtraLength (val : Nat) (buf : Bytes) (offset : Nat) : Except Stop (Nat × Nat) :=
  match val with
  | 24 => do return (← ByteBuffer.getByteVal buf offset, offset + 1)
  | 25 => do return (← ByteBuffer.getUint16Val buf offset, offset + 2)
  | 26 => do return (← ByteBuffer.getUint32Val buf offset, offset + 4)
  | 27 => do return (← ByteBuffer.getUint64Val buf offset, offset + 8)
  | 28 | 29 | 30 => .error (.exception "Reserved value used.")
  | 31 => .error (.exception "Indefinite length is not supported.")
  | val => .ok (val, offset)

section

variable (parseItem : Nat → Except Stop (Value × Nat))

/-- The loop of `_parseArray`, from the entries that it has. -/
def parseArray : Nat → List (Key × Value) → Nat → Except Stop (Value × Nat)
  | 0, arr, offset => .ok (.array arr, offset)
  | count + 1, arr, offset => do
    let (item, offset) ← parseItem offset
    parseArray count (push arr item) offset

/-- The loop of `_parseMap`, from the entries that it has. -/
def parseMap : Nat → List (Key × Value) → Nat → Except Stop (Value × Nat)
  | 0, map, offset => .ok (.array map, offset)
  | count + 1, map, offset => do
    let (mapKey, offset) ← parseItem offset
    let (mapVal, offset) ← parseItem offset
    match mapKey.asKey with
    | none => .error (.exception "Can only use strings or integers as map keys")
    | some key => parseMap count (setEntry key mapVal map) offset

/-- `_parseItemData($type, $val, $buf, $offset)`. -/
def parseItemData (type val : Nat) (buf : Bytes) (offset : Nat) : Except Stop (Value × Nat) :=
  match type with
  | 0 => .ok (.int val, offset)
  | 1 => .ok (.int (-1 - val), offset)
  | 2 => do return (.buffer (← ByteBuffer.getBytes buf offset val), offset + val)
  | 3 => do return (.text (← ByteBuffer.getBytes buf offset val), offset + val)
  | 4 => parseArray parseItem val [] offset
  | 5 => parseMap parseItem val [] offset
  | 6 => parseItem offset
  | type => .error (.exception (("Unknown major type " : Str) ++ decimal type ++ ['.']))

end

/-- `_parseItem($buf, $offset)`, nested at most as deeply as the first argument says. -/
def parseItem (buf : Bytes) : Nat → Nat → Except Stop (Value × Nat)
  | 0, _ => .error .stack
  | depth + 1, offset => do
    let first ← ByteBuffer.getByteVal buf offset
    let offset := offset + 1
    let type := first >>> 5
    let val := first &&& 0b11111
    if type = 7 then parseFloatSimple val buf offset
    else
      let (val, offset) ← parseExtraLength val buf offset
      parseItemData (parseItem buf depth) type val buf offset

/-- `decodeInPlace($bufOrBin, $startOffset, $endOffset)`: the item, and the offset after it. -/
def decodeInPlace (buf : Bytes) (startOffset : Nat) : Except Stop (Value × Nat) :=
  parseItem buf (buf.length + 1) startOffset

/-- `decode($bufOrBin)`. -/
def decode (buf : Bytes) : Except Stop Value := do
  let (result, offset) ← parseItem buf (buf.length + 1) 0
  if offset ≠ buf.length then .error (.exception "Unused bytes after data item.")
  return result

/-! ## Items -/

/-- How many bytes the argument takes after the first byte. -/
inductive Width where
  | zero | one | two | four | eight
deriving DecidableEq

namespace Width

def bytes : Width → Nat
  | zero => 0
  | one => 1
  | two => 2
  | four => 4
  | eight => 8

/-- The first number that does not fit. A number of eight bytes has to be a positive
integer of PHP. -/
def bound : Width → Nat
  | zero => 24
  | one => 256
  | two => 65536
  | four => 2 ^ 32
  | eight => 2 ^ 63

end Width

/-- An argument that fits its width. -/
structure Arg where
  width : Width
  value : Nat
  fits : value < width.bound

namespace Arg

/-- The lower five bits of the first byte. -/
def code (a : Arg) : Nat :=
  match a.width with
  | .zero => a.value
  | .one => 24
  | .two => 25
  | .four => 26
  | .eight => 27

/-- The bytes after the first one. -/
def extra (a : Arg) : Bytes := bigEndian a.width.bytes a.value

/-- The first byte of an item of a major type, and its argument. -/
def head (major : Nat) (a : Arg) : Bytes := UInt8.ofNat (major * 32 + a.code) :: a.extra

theorem length_extra (a : Arg) : a.extra.length = a.width.bytes := length_bigEndian _ _

theorem code_lt (a : Arg) : a.code < 32 := by
  obtain ⟨width, value, fits⟩ := a
  cases width with
  | zero =>
    have hfits : value < 24 := fits
    change value < 32
    omega
  | one => exact Nat.lt_of_sub_eq_succ rfl
  | two => exact Nat.lt_of_sub_eq_succ rfl
  | four => exact Nat.lt_of_sub_eq_succ rfl
  | eight => exact Nat.lt_of_sub_eq_succ rfl

end Arg

/-- The simple values that are supported. -/
inductive Simple where
  | no | yes | null
deriving DecidableEq

namespace Simple

def code : Simple → Nat
  | no => 20
  | yes => 21
  | null => 22

def value : Simple → Value
  | no => .bool false
  | yes => .bool true
  | null => .null

end Simple

/-- Items of major type 7. -/
inductive Special where
  /-- in the first byte, or in a byte of its own -/
  | simple (own : Bool) (s : Simple)
  | half (bits : UInt16)
  | single (bits : UInt32)
  | double (bits : UInt64)

namespace Special

/-- The lower five bits of the first byte. -/
def code : Special → Nat
  | simple false s => s.code
  | simple true _ => 24
  | half _ => 25
  | single _ => 26
  | double _ => 27

/-- The bytes after the first one. -/
def extra : Special → Bytes
  | simple false _ => []
  | simple true s => bigEndian 1 s.code
  | half bits => bigEndian 2 bits.toNat
  | single bits => bigEndian 4 bits.toNat
  | double bits => bigEndian 8 bits.toNat

def value : Special → Value
  | simple _ s => s.value
  | half bits => .ofDouble (Double.ofBits 5 10 bits.toNat)
  | single bits => .float (Double.ofBits 8 23 bits.toNat)
  | double bits => .float (Double.ofBits 11 52 bits.toNat)

def head (s : Special) : Bytes := UInt8.ofNat (7 * 32 + s.code) :: s.extra

end Special

/-- The syntax of an item. The entries of a map are listed key, value, key, value. -/
inductive Item where
  | uint (arg : Arg)
  | nint (arg : Arg)
  | bytes (arg : Arg) (b : Bytes)
  | text (arg : Arg) (b : Bytes)
  | array (arg : Arg) (items : List Item)
  | map (arg : Arg) (entries : List Item)
  | tag (arg : Arg) (item : Item)
  | special (s : Special)

namespace Item

mutual

/-- The bytes of an item. -/
def encode : Item → Bytes
  | uint arg => arg.head 0
  | nint arg => arg.head 1
  | bytes arg b => arg.head 2 ++ b
  | text arg b => arg.head 3 ++ b
  | array arg items => arg.head 4 ++ encodeAll items
  | map arg entries => arg.head 5 ++ encodeAll entries
  | tag arg item => arg.head 6 ++ encode item
  | special s => s.head

/-- The items one after the other. -/
def encodeAll : List Item → Bytes
  | [] => []
  | item :: items => encode item ++ encodeAll items

end

/-- The entries of a map from their keys and values; a key that is set again keeps its
place. -/
def assign : List (Key × Value) → List Value → List (Key × Value)
  | entries, key :: val :: rest => assign (setEntry (key.asKey.getD (.int 0)) val entries) rest
  | entries, _ => entries

mutual

/-- The value of an item. -/
def value : Item → Value
  | uint arg => .int arg.value
  | nint arg => .int (-1 - arg.value)
  | bytes _ b => .buffer b
  | text _ b => .text b
  | array _ items => .array ((values items).foldl push [])
  | map _ entries => .array (assign [] (values entries))
  | tag _ item => value item
  | special s => s.value

def values : List Item → List Value
  | [] => []
  | item :: items => value item :: values items

end

/-- Every other value, from the first on, is an integer or a string. -/
def KeysOk : List Value → Prop
  | key :: _ :: rest => key.asKey.isSome = true ∧ KeysOk rest
  | _ => True

mutual

/-- The arguments are the lengths of what follows, and the keys of maps are integers or
strings. -/
def WellFormed : Item → Prop
  | bytes arg b | text arg b => arg.value = b.length
  | array arg items => arg.value = items.length ∧ AllWellFormed items
  | map arg entries =>
    2 * arg.value = entries.length ∧ KeysOk (values entries) ∧ AllWellFormed entries
  | tag _ item => WellFormed item
  | _ => True

def AllWellFormed : List Item → Prop
  | [] => True
  | item :: items => WellFormed item ∧ AllWellFormed items

end

end Item

end Dockerset.WebauthnData.Cbor

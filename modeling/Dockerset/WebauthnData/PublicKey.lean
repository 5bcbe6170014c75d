import Dockerset.Data.Der
import Dockerset.Go.Utf8
import Dockerset.WebauthnData.AuthData
import Dockerset.Webauthn.Endpoint

/-!
# The public key as it is stored (`getPublicKeyPem` of `AuthenticatorData.php`)

The key of an attested credential is written as a SubjectPublicKeyInfo in DER, in the
lines of a PEM file. `readPem`, `readEcPoint` and `readRsaKey` read such a file by the
rules of those formats, and find the key that was sent.
-/

namespace Dockerset.WebauthnData
open Go PhpLang Logic Data
open Webauthn (localhostHash)

/-! ## DER functions -/

/-- The loop of `_der_length`. -/
def lengthLoop : Nat → Nat → Bytes → Bytes
  | 0, _, lenBytes => lenBytes
  | fuel + 1, len, lenBytes =>
    if 0 < len then lengthLoop fuel (len / 256) (UInt8.ofNat (len % 256) :: lenBytes) else lenBytes

/-- `_der_length($len)`. -/
def derLength (len : Nat) : Bytes :=
  if len < 128 then [UInt8.ofNat len]
  else
    let lenBytes := lengthLoop len len []
    UInt8.ofNat (0x80 ||| lenBytes.length) :: lenBytes

/-- A tag, the length and the contents. -/
def derElement (tag : UInt8) (contents : Bytes) : Bytes :=
  tag :: (derLength contents.length ++ contents)

/-- `_der_sequence($contents)`. -/
def derSequence (contents : Bytes) : Bytes := derElement 0x30 contents

/-- `_der_oid($encoded)`. -/
def derOid (encoded : Bytes) : Bytes := derElement 0x06 encoded

/-- `_der_bitString($bytes)`. -/
def derBitString (bytes : Bytes) : Bytes := derElement 0x03 (0x00 :: bytes)

/-- `_der_nullValue()`. -/
def derNullValue : Bytes := [0x05, 0x00]

/-- Leading zero bytes removed, up to the last byte. -/
def stripZeros : Bytes → Bytes
  | c :: d :: rest => if c = 0 then stripZeros (d :: rest) else c :: d :: rest
  | s => s

/-- `_der_unsignedInteger($bytes)`. -/
def derUnsignedInteger (bytes : Bytes) : Bytes :=
  let bytes := stripZeros bytes
  derElement 0x02 (if bytes.headD 0 &&& 0x80 ≠ 0 then 0x00 :: bytes else bytes)

/-! ## The key -/

/-- `getPublicKeyU2F()` of a key; the coordinates of a key that was not read are empty. -/
def publicKeyU2F : KeyParams → Bytes
  | .es256 x y => 0x04 :: (x ++ y)
  | _ => [0x04]

/-- `_getEc2Der()`. -/
def ec2Der (params : KeyParams) : Bytes :=
  derSequence
    (derSequence
      (derOid [0x2A, 0x86, 0x48, 0xCE, 0x3D, 0x02, 0x01] ++
        derOid [0x2A, 0x86, 0x48, 0xCE, 0x3D, 0x03, 0x01, 0x07]) ++
      derBitString (publicKeyU2F params))

/-- The modulus and the exponent; those of a key that was not read are empty. -/
def rsaIntegers : KeyParams → Bytes × Bytes
  | .rs256 n e => (n, e)
  | _ => ([], [])

/-- `_getRsaDer()`. -/
def rsaDer (params : KeyParams) : Bytes :=
  derSequence
    (derSequence
      (derOid [0x2A, 0x86, 0x48, 0x86, 0xF7, 0x0D, 0x01, 0x01, 0x01] ++ derNullValue) ++
      derBitString
        (derSequence (derUnsignedInteger (rsaIntegers params).1 ++
          derUnsignedInteger (rsaIntegers params).2)))

/-- The loop of `chunk_split`: the chunks that are full, and the rest. -/
def chunkLoop (chunklen : Nat) (sep : Bytes) : Nat → Bytes → Bytes
  | 0, s => if s = [] then [] else s ++ sep
  | chunks + 1, s => s.take chunklen ++ sep ++ chunkLoop chunklen sep chunks (s.drop chunklen)

/-- `chunk_split($s, $chunklen, $sep)`. -/
def chunkSplit (s : Bytes) (chunklen : Nat) (sep : Bytes) : Bytes :=
  if s.length < chunklen then s ++ sep else chunkLoop chunklen sep (s.length / chunklen) s

def pemBegin : Bytes := ascii "-----BEGIN PUBLIC KEY-----\n"

def pemEnd : Bytes := ascii "-----END PUBLIC KEY-----\n"

/-- The PEM file of a key in DER. -/
def pem (der : Bytes) : Bytes := pemBegin ++ (chunkSplit (Base64.encode der) 64 [0x0a] ++ pemEnd)

/-- `getPublicKeyPem()`. Without attested data there is no key type. -/
def getPublicKeyPem (numericEq : Bytes → Int → Bool) (obj : AuthenticatorObj) : Except Stop Bytes :=
  let invalid := .error (.exception "invalid key type")
  match obj.attestedCredentialData with
  | none => invalid
  | some data =>
    let key := data.credentialPublicKey
    if looseEq numericEq key.kty 2 then .ok (pem (ec2Der key.params))
    else if looseEq numericEq key.kty 3 then .ok (pem (rsaDer key.params))
    else invalid

/-! ## Reading such a file -/

/-- The bytes in a PEM file of a public key. -/
def readPem (s : Bytes) : Option Bytes :=
  if pemBegin.isPrefixOf s && pemEnd.isSuffixOf s then
    Base64.decodeForgiving ((s.drop pemBegin.length).take (s.length - pemBegin.length - pemEnd.length))
  else none

/-- The algorithm and the key of a SubjectPublicKeyInfo. -/
def readInfo (der : Bytes) : Option (Bytes × Bytes) := do
  let info ← Der.readOnly 0x30 der
  let (algorithm, rest) ← Der.readElement 0x30 info
  let bits ← Der.readOnly 0x03 rest
  -- no unused bits
  if bits.head? = some 0 then some (algorithm, bits.tail) else none

/-- The point of a key of the curve P-256. -/
def readEcPoint (der : Bytes) : Option Bytes := do
  let (algorithm, key) ← readInfo der
  let (oid, rest) ← Der.readElement 0x06 algorithm
  let curve ← Der.readOnly 0x06 rest
  if Der.readOid oid = [1, 2, 840, 10045, 2, 1] ∧ Der.readOid curve = [1, 2, 840, 10045, 3, 1, 7] then
    some key
  else none

/-- The modulus and the exponent of an RSA key. -/
def readRsaKey (der : Bytes) : Option (Nat × Nat) := do
  let (algorithm, key) ← readInfo der
  let (oid, rest) ← Der.readElement 0x06 algorithm
  let null ← Der.readOnly 0x05 rest
  let integers ← Der.readOnly 0x30 key
  let (n, rest) ← Der.readElement 0x02 integers
  let e ← Der.readOnly 0x02 rest
  if Der.readOid oid = [1, 2, 840, 113549, 1, 1, 1] ∧ null = [] then
    return (← Der.readUnsigned n, ← Der.readUnsigned e)
  else none

/-! ## Elements are read as they were written -/

section

variable {len : Nat} {tag : UInt8} {contents rest : Bytes}

/-- The loop writes the length with as few bytes as it needs. -/
theorem lengthLoop_eq {fuel : Nat} (lenBytes : Bytes) (h : len ≤ fuel) :
    ∃ width, lengthLoop fuel len lenBytes = bigEndian width len ++ lenBytes ∧ len < 256 ^ width ∧
      (0 < width → 256 ^ (width - 1) ≤ len) := by
  induction fuel generalizing len lenBytes with
  | zero =>
    rw [Nat.le_zero.1 h]
    exact ⟨0, rfl, Nat.one_pos, fun hpos => absurd hpos (Nat.lt_irrefl 0)⟩
  | succ fuel ih =>
    by_cases hpos : 0 < len
    · have hbyte : UInt8.ofNat (len % 256) = UInt8.ofNat len := by
        rw [← UInt8.toNat_inj, UInt8.toNat_ofNat', UInt8.toNat_ofNat']
        omega
      obtain ⟨width, heq, hlt, hle⟩ :=
        ih (UInt8.ofNat (len % 256) :: lenBytes) (by omega : len / 256 ≤ fuel)
      refine ⟨width + 1, ?_, ?_, ?_⟩
      · rw [lengthLoop, if_pos hpos, heq, bigEndian, hbyte, List.append_assoc, List.singleton_append]
      · rw [Nat.pow_succ]
        omega
      · intro _
        rw [Nat.add_sub_cancel]
        cases width with
        | zero => exact hpos
        | succ width =>
          have hle := hle (Nat.succ_pos width)
          rw [Nat.add_sub_cancel] at hle
          rw [Nat.pow_succ]
          omega
    · have hzero : len = 0 := by omega
      refine ⟨0, ?_, ?_, ?_⟩
      · rw [lengthLoop, if_neg hpos]
        rfl
      · rw [hzero]
        exact Nat.one_pos
      · intro hpos
        exact absurd hpos (Nat.lt_irrefl 0)

/-- A length of PHP takes at most eight bytes. -/
theorem derLength_eq (h : len < 2 ^ 63) : (len < 128 ∧ derLength len = [UInt8.ofNat len]) ∨
    ∃ width ≤ 8, len < 256 ^ width ∧
      derLength len = UInt8.ofNat (0x80 + width) :: bigEndian width len := by
  unfold derLength
  split
  · next hshort => exact .inl ⟨hshort, rfl⟩
  · obtain ⟨width, heq, hlt, hle⟩ := lengthLoop_eq [] (Nat.le_refl len)
    have hwidth : width ≤ 8 := by
      by_contra hwide
      have hpow : 256 ^ 8 ≤ 256 ^ (width - 1) := Nat.pow_le_pow_right (by omega) (by omega)
      have hle := hle (by omega)
      omega
    have hor : 0x80 ||| width = 0x80 + width :=
      (Nat.two_pow_add_eq_or_of_lt (by omega : width < 2 ^ 7) 1).symm
    refine .inr ⟨width, hwidth, hlt, ?_⟩
    dsimp only
    rw [heq, List.append_nil, length_bigEndian, hor]

theorem readLength_derLength (h : len < 2 ^ 63) :
    Der.readLength (derLength len ++ rest) = some (len, rest) := by
  rcases derLength_eq h with ⟨hshort, heq⟩ | ⟨width, hwidth, hlt, heq⟩
  · rw [heq]
    exact Der.readLength_short hshort
  · rw [heq, List.cons_append]
    exact Der.readLength_long hlt (by omega)

theorem length_derLength_le (h : len < 2 ^ 63) : (derLength len).length ≤ 9 := by
  rcases derLength_eq h with ⟨-, heq⟩ | ⟨width, hwidth, -, heq⟩
  · rw [heq, List.length_singleton]
    omega
  · rw [heq, List.length_cons, length_bigEndian]
    omega

theorem length_derElement_le (h : contents.length < 2 ^ 63) :
    (derElement tag contents).length ≤ contents.length + 10 := by
  have hle := length_derLength_le h
  rw [derElement, List.length_cons, List.length_append]
  omega

theorem readElement_derElement (h : contents.length < 2 ^ 63) :
    Der.readElement tag (derElement tag contents ++ rest) = some (contents, rest) := by
  rw [derElement, List.cons_append, List.append_assoc]
  exact Der.readElement_cons (readLength_derLength h)

theorem readOnly_derElement (h : contents.length < 2 ^ 63) :
    Der.readOnly tag (derElement tag contents) = some contents := by
  have helement : Der.readElement tag (derElement tag contents ++ []) = some (contents, []) :=
    readElement_derElement h
  rw [List.append_nil] at helement
  exact Der.readOnly_of_readElement helement

/-! ## Integers -/

theorem stripZeros_cons_cons (c d : UInt8) (rest : Bytes) :
    stripZeros (c :: d :: rest) = if c = 0 then stripZeros (d :: rest) else c :: d :: rest := by
  rw [stripZeros]

theorem beNat_stripZeros (b : Bytes) : beNat (stripZeros b) = beNat b := by
  induction b with
  | nil => rfl
  | cons c b ih =>
    cases b with
    | nil => rfl
    | cons d rest =>
      rw [stripZeros_cons_cons]
      split
      · next hzero => rw [ih, hzero, beNat_zero_cons]
      · rfl

/-- What is left is a single byte, or begins with one that is not zero. -/
theorem stripZeros_cases {b : Bytes} (h : b ≠ []) :
    ∃ c rest, stripZeros b = c :: rest ∧ (rest = [] ∨ c ≠ 0) := by
  induction b with
  | nil => exact absurd rfl h
  | cons c b ih =>
    cases b with
    | nil => exact ⟨c, [], rfl, .inl rfl⟩
    | cons d rest =>
      rw [stripZeros_cons_cons]
      split
      · exact ih (List.cons_ne_nil d rest)
      · next hc => exact ⟨c, d :: rest, rfl, .inr hc⟩

theorem and_0x80_ne_zero_iff (c : UInt8) : c &&& 0x80 ≠ 0 ↔ ¬ c < 0x80 := by
  have all : ∀ n < 256, (UInt8.ofNat n &&& 0x80 ≠ 0 ↔ ¬ UInt8.ofNat n < 0x80) := by decide +kernel
  have hc := all c.toNat c.toNat_lt
  rwa [UInt8.ofNat_toNat] at hc

/-- The contents of the element that `_der_unsignedInteger` writes. -/
def unsignedContents (bytes : Bytes) : Bytes :=
  if (stripZeros bytes).headD 0 &&& 0x80 ≠ 0 then 0x00 :: stripZeros bytes else stripZeros bytes

theorem derUnsignedInteger_eq (bytes : Bytes) :
    derUnsignedInteger bytes = derElement 0x02 (unsignedContents bytes) := rfl

/-- The integer is the number that the bytes spell, never a negative one. -/
theorem readUnsigned_contents {bytes : Bytes} (h : bytes ≠ []) :
    Der.readUnsigned (unsignedContents bytes) = some (beNat bytes) := by
  obtain ⟨c, rest, hstrip, hcases⟩ := stripZeros_cases h
  have hvalue : beNat (c :: rest) = beNat bytes := by rw [← hstrip, beNat_stripZeros]
  unfold unsignedContents
  rw [hstrip, List.headD_cons]
  split
  · next htop =>
    have hlarge := (and_0x80_ne_zero_iff c).1 htop
    have hok : ¬ ((0x80 : UInt8) ≤ 0 ∨ ((0 : UInt8) = 0 ∧ c < 0x80)) := by
      rintro (hzero | ⟨-, hsmall⟩)
      · exact absurd hzero (by decide)
      · exact hlarge hsmall
    rw [Der.readUnsigned, if_neg hok, ← hvalue, beNat_zero_cons]
  · next htop =>
    have hsmall : c < 0x80 := by
      by_contra hlarge
      exact htop ((and_0x80_ne_zero_iff c).2 hlarge)
    cases rest with
    | nil =>
      rw [Der.readUnsigned, if_pos hsmall, ← hvalue]
      simp [beNat]
    | cons d rest =>
      have hc : c ≠ 0 := by
        rcases hcases with hnil | hc
        · cases hnil
        · exact hc
      have hok : ¬ (0x80 ≤ c ∨ (c = 0 ∧ d < 0x80)) := by
        rintro (hlarge | ⟨hzero, -⟩)
        · exact absurd hsmall (UInt8.not_lt.2 hlarge)
        · exact hc hzero
      rw [Der.readUnsigned, if_neg hok, hvalue]

theorem length_stripZeros_le (b : Bytes) : (stripZeros b).length ≤ b.length := by
  induction b with
  | nil => exact Nat.le_refl _
  | cons c b ih =>
    cases b with
    | nil => exact Nat.le_refl _
    | cons d rest =>
      rw [stripZeros_cons_cons]
      split
      · exact Nat.le_succ_of_le ih
      · exact Nat.le_refl _

theorem length_unsignedContents_le (b : Bytes) : (unsignedContents b).length ≤ b.length + 1 := by
  have hle := length_stripZeros_le b
  unfold unsignedContents
  split
  · rw [List.length_cons]
    omega
  · omega

/-! ## Keys -/

/-- The two parts of a SubjectPublicKeyInfo. -/
theorem readInfo_der {algorithm key : Bytes} (h : algorithm.length + key.length < 2 ^ 62) :
    readInfo (derSequence (derSequence algorithm ++ derBitString key)) = some (algorithm, key) := by
  have halgorithm : (derElement 0x30 algorithm).length ≤ algorithm.length + 10 :=
    length_derElement_le (by omega)
  have hkey : (derElement 0x03 (0x00 :: key)).length ≤ (0x00 :: key).length + 10 :=
    length_derElement_le (by rw [List.length_cons]; omega)
  rw [List.length_cons] at hkey
  have houter : Der.readOnly 0x30 (derSequence (derSequence algorithm ++ derBitString key)) =
      some (derSequence algorithm ++ derBitString key) := by
    apply readOnly_derElement
    rw [List.length_append, derSequence, derBitString]
    omega
  have hinner : Der.readElement 0x30 (derSequence algorithm ++ derBitString key) =
      some (algorithm, derBitString key) := readElement_derElement (by omega)
  have hbits : Der.readOnly 0x03 (derBitString key) = some (0x00 :: key) :=
    readOnly_derElement (by rw [List.length_cons]; omega)
  unfold readInfo
  rw [houter]
  change (Der.readElement 0x30 (derSequence algorithm ++ derBitString key) >>= _) = _
  rw [hinner]
  change (Der.readOnly 0x03 (derBitString key) >>= _) = _
  rw [hbits]
  rfl

/-- A key of the curve P-256 is read as its point. -/
theorem readEcPoint_der {params : KeyParams} (h : (publicKeyU2F params).length < 2 ^ 61) :
    readEcPoint (ec2Der params) = some (publicKeyU2F params) := by
  unfold readEcPoint ec2Der
  rw [readInfo_der]
  · rfl
  · change 19 + (publicKeyU2F params).length < 2 ^ 62
    omega

/-- An RSA key is read as its two numbers. -/
theorem readRsaKey_der (params : KeyParams)
    (h : (rsaIntegers params).1.length + (rsaIntegers params).2.length < 2 ^ 60) :
    readRsaKey (rsaDer params) =
      (Der.readUnsigned (unsignedContents (rsaIntegers params).1)).bind fun n =>
        (Der.readUnsigned (unsignedContents (rsaIntegers params).2)).map fun e => (n, e) := by
  obtain ⟨⟨n, e⟩, hp⟩ : ∃ integers, rsaIntegers params = integers := ⟨_, rfl⟩
  rw [hp] at h ⊢
  dsimp only at h ⊢
  have hn := length_unsignedContents_le n
  have he := length_unsignedContents_le e
  have hnElement : (derElement 0x02 (unsignedContents n)).length ≤ (unsignedContents n).length + 10 :=
    length_derElement_le (by omega)
  have heElement : (derElement 0x02 (unsignedContents e)).length ≤ (unsignedContents e).length + 10 :=
    length_derElement_le (by omega)
  have hintegers : (derUnsignedInteger n ++ derUnsignedInteger e).length ≤
      n.length + e.length + 22 := by
    rw [List.length_append, derUnsignedInteger_eq, derUnsignedInteger_eq]
    omega
  have hsequence : (derElement 0x30 (derUnsignedInteger n ++ derUnsignedInteger e)).length ≤
      (derUnsignedInteger n ++ derUnsignedInteger e).length + 10 := length_derElement_le (by omega)
  have hinfo : readInfo (rsaDer params) = some
      (derOid [0x2A, 0x86, 0x48, 0x86, 0xF7, 0x0D, 0x01, 0x01, 0x01] ++ derNullValue,
        derSequence (derUnsignedInteger n ++ derUnsignedInteger e)) := by
    rw [rsaDer, hp]
    apply readInfo_der
    change 13 + (derElement 0x30 (derUnsignedInteger n ++ derUnsignedInteger e)).length < 2 ^ 62
    omega
  have hoid : Der.readElement 0x06
      (derOid [0x2A, 0x86, 0x48, 0x86, 0xF7, 0x0D, 0x01, 0x01, 0x01] ++ derNullValue) =
        some ([0x2A, 0x86, 0x48, 0x86, 0xF7, 0x0D, 0x01, 0x01, 0x01], derNullValue) :=
    readElement_derElement (by decide)
  have hnull : Der.readOnly 0x05 derNullValue = some [] := by decide
  have hread : Der.readOnly 0x30 (derSequence (derUnsignedInteger n ++ derUnsignedInteger e)) =
      some (derUnsignedInteger n ++ derUnsignedInteger e) := readOnly_derElement (by omega)
  have hreadN : Der.readElement 0x02 (derUnsignedInteger n ++ derUnsignedInteger e) =
      some (unsignedContents n, derUnsignedInteger e) := by
    rw [derUnsignedInteger_eq]
    exact readElement_derElement (by omega)
  have hreadE : Der.readOnly 0x02 (derUnsignedInteger e) = some (unsignedContents e) := by
    rw [derUnsignedInteger_eq]
    exact readOnly_derElement (by omega)
  have harcs : Der.readOid [0x2A, 0x86, 0x48, 0x86, 0xF7, 0x0D, 0x01, 0x01, 0x01] =
      [1, 2, 840, 113549, 1, 1, 1] := by decide
  simp only [readRsaKey, hinfo, hoid, hnull, hread, hreadN, hreadE, harcs, Option.bind_eq_bind,
    Option.bind_some, and_self, if_true]
  cases Der.readUnsigned (unsignedContents n) with
  | none => rfl
  | some n =>
    cases Der.readUnsigned (unsignedContents e) <;> rfl

/-! ## The file -/

theorem filter_chunkLoop {chunklen chunks : Nat} {s : Bytes} :
    (chunkLoop chunklen [0x0a] chunks s).filter (fun c => !Base64.isSpace c) =
      s.filter fun c => !Base64.isSpace c := by
  induction chunks generalizing s with
  | zero =>
    rw [chunkLoop]
    split
    · next hnil => rw [hnil]
    · rw [List.filter_append]
      exact List.append_nil _
  | succ chunks ih =>
    have hsep : ([0x0a] : Bytes).filter (fun c => !Base64.isSpace c) = [] := rfl
    rw [chunkLoop, List.filter_append, List.filter_append, ih, hsep, List.append_nil,
      ← List.filter_append, List.take_append_drop]

theorem filter_chunkSplit {chunklen : Nat} {s : Bytes} :
    (chunkSplit s chunklen [0x0a]).filter (fun c => !Base64.isSpace c) =
      s.filter fun c => !Base64.isSpace c := by
  unfold chunkSplit
  split
  · rw [List.filter_append]
    exact List.append_nil _
  · exact filter_chunkLoop

theorem readPem_pem (der : Bytes) : readPem (pem der) = some der := by
  have hprefix : pemBegin.isPrefixOf (pem der) = true := by
    rw [List.isPrefixOf_iff_prefix]
    exact List.prefix_append _ _
  have hsuffix : pemEnd.isSuffixOf (pem der) = true := by
    rw [List.isSuffixOf_iff_suffix, pem, ← List.append_assoc]
    exact List.suffix_append _ _
  have hbody : ((pem der).drop pemBegin.length).take
      ((pem der).length - pemBegin.length - pemEnd.length) =
        chunkSplit (Base64.encode der) 64 [0x0a] := by
    rw [pem, List.drop_left]
    apply List.take_left'
    simp only [List.length_append]
    omega
  rw [readPem, hprefix, hsuffix, hbody]
  apply Base64.decodeForgiving_of_filter
  rw [filter_chunkSplit, Base64.filter_encode]

/-! ## The key that was sent is the key that is stored -/

variable {numericEq : Bytes → Int → Bool}

/-- What can be read from the file of a key. -/
inductive Stored (file : Bytes) : KeyParams → Prop where
  | es256 {x y : Bytes} (hx : x.length = 32) (hy : y.length = 32)
    (point : (readPem file).bind readEcPoint = some (0x04 :: (x ++ y))) : Stored file (.es256 x y)
  | rs256 {n e : Bytes} (hn : n.length = 256) (he : e.length = 3)
    (key : (readPem file).bind readRsaKey = some (beNat n, beNat e)) : Stored file (.rs256 n e)
  /-- a point without coordinates, or no key at all -/
  | unread (point : (readPem file).bind readEcPoint ∈ [some [0x04], none])
    (key : (readPem file).bind readRsaKey = none) : Stored file .unread

theorem stored_es256 {x y : Bytes} (hx : x.length = 32) (hy : y.length = 32) :
    Stored (pem (ec2Der (.es256 x y))) (.es256 x y) := by
  refine .es256 hx hy ?_
  rw [readPem_pem, Option.bind_some]
  apply readEcPoint_der
  rw [publicKeyU2F, List.length_cons, List.length_append, hx, hy]
  decide

theorem stored_rs256 {n e : Bytes} (hn : n.length = 256) (he : e.length = 3) :
    Stored (pem (rsaDer (.rs256 n e))) (.rs256 n e) := by
  have hbound : n.length + e.length < 2 ^ 60 := by
    rw [hn, he]
    decide
  have hnNe : n ≠ [] := List.ne_nil_of_length_pos (by omega)
  have heNe : e ≠ [] := List.ne_nil_of_length_pos (by omega)
  refine .rs256 hn he ?_
  rw [readPem_pem, Option.bind_some, readRsaKey_der (.rs256 n e) hbound]
  change ((Der.readUnsigned (unsignedContents n)).bind fun n =>
    (Der.readUnsigned (unsignedContents e)).map fun e => (n, e)) = _
  rw [readUnsigned_contents hnNe, readUnsigned_contents heNe]
  rfl

theorem stored_unread_ec : Stored (pem (ec2Der .unread)) .unread := by
  constructor
  · rw [readPem_pem, Option.bind_some, readEcPoint_der (by decide)]
    exact List.mem_cons_self
  · rw [readPem_pem]
    decide +kernel

theorem stored_unread_rsa : Stored (pem (rsaDer .unread)) .unread := by
  constructor
  · rw [readPem_pem]
    decide +kernel
  · rw [readPem_pem]
    decide +kernel

/-- The file of a checked key. -/
theorem stored_of_checked {obj : AuthenticatorObj} {data : AttestedCredentialData} {file : Bytes}
    (hchecked : Checked data.credentialPublicKey) (hdata : obj.attestedCredentialData = some data)
    (hfile : getPublicKeyPem numericEq obj = .ok file) :
    Stored file data.credentialPublicKey.params := by
  obtain ⟨aaguid, credentialId, key⟩ := data
  unfold getPublicKeyPem at hfile
  rw [hdata] at hfile
  dsimp only at hchecked hfile ⊢
  cases hchecked with
  | es256 hx hy =>
    cases hfile
    exact stored_es256 hx hy
  | rs256 hn he =>
    cases hfile
    exact stored_rs256 hn he
  | unread =>
    split at hfile
    · cases hfile
      exact stored_unread_ec
    · split at hfile
      · cases hfile
        exact stored_unread_rsa
      · cases hfile

/-- **The key that is stored is the key that was sent.** The file of an object that the
constructor accepted is read by the rules of PEM and DER as the point or as the two
numbers of the checked key. A key with another algorithm was not read: if its type has
a file, no coordinates and no modulus are in it. -/
theorem getPublicKeyPem_stored {binary : Bytes} {obj : AuthenticatorObj}
    {data : AttestedCredentialData} (h : construct numericEq binary = .ok obj)
    (hdata : obj.attestedCredentialData = some data) :
    (∀ file, getPublicKeyPem numericEq obj = .ok file → Stored file data.credentialPublicKey.params) ∧
      (data.credentialPublicKey.params ≠ .unread → ∃ file, getPublicKeyPem numericEq obj = .ok file) := by
  have hchecked := construct_checked h hdata
  constructor
  · intro file hfile
    exact stored_of_checked hchecked hdata hfile
  · intro hread
    obtain ⟨aaguid, credentialId, key⟩ := data
    unfold getPublicKeyPem
    rw [hdata]
    cases hchecked with
    | es256 => exact ⟨_, rfl⟩
    | rs256 => exact ⟨_, rfl⟩
    | unread => exact absurd rfl hread

/-- Authenticator data with an ES256 key whose coordinates are all ones and all twos. -/
def sampleES256 : Bytes :=
  localhostHash ++ (0x41 :: [0, 0, 0, 9]) ++ List.replicate 16 0x0b ++ [0, 1, 0x0c] ++
    [0xa5, 0x01, 0x02, 0x03, 0x26, 0x20, 0x01, 0x21, 0x58, 0x20] ++ List.replicate 32 1 ++
    [0x22, 0x58, 0x20] ++ List.replicate 32 2

set_option maxRecDepth 4000 in
theorem getPublicKeyPem_stored_es256 : ∃ obj data, construct (fun _ _ => false) sampleES256 = .ok obj ∧
    obj.attestedCredentialData = some data ∧
    data.credentialPublicKey.params = .es256 (List.replicate 32 1) (List.replicate 32 2) ∧
    ∃ file, getPublicKeyPem (fun _ _ => false) obj = .ok file ∧
      Stored file (.es256 (List.replicate 32 1) (List.replicate 32 2)) := by
  let data : AttestedCredentialData := ⟨List.replicate 16 0x0b, [0x0c],
    .int 2, .int (-7), .es256 (List.replicate 32 1) (List.replicate 32 2)⟩
  let obj : AuthenticatorObj := ⟨localhostHash, readFlags 0x41, 9, some data⟩
  have hconstruct : construct (fun _ _ => false) sampleES256 = .ok obj := by rfl
  obtain ⟨hstored, hfile⟩ := getPublicKeyPem_stored hconstruct rfl
  obtain ⟨file, hfile⟩ := hfile KeyParams.noConfusion
  exact ⟨obj, data, hconstruct, rfl, rfl, file, hfile, hstored file hfile⟩

end

end Dockerset.WebauthnData

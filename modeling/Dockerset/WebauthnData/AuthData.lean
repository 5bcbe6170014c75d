import Dockerset.WebauthnData.CborGrammar
import Dockerset.Webauthn.Library

/-!
# Reading authenticator data (`WebAuthn/Attestation/AuthenticatorData.php`)

The constructor in full: the fixed fields, the attested credential with its COSE
key, and the extensions. `==` between a string and an integer, which `switch` uses,
is the runtime's and is a parameter.

A `Layout` is authenticator data as a sender writes it. `construct_ok_iff` says that
the constructor accepts the layouts whose key passes its checks, and reads back what
was written. `authenticatorData_eq` connects it with the constructor as `processGet`
sees it, which keeps four of the fields.
-/

namespace Dockerset.WebauthnData
open Go PhpLang Logic
open Cbor (Reads NoStack)

/-! ## The constructor -/

/-- The named flags; the other bits are not looked at. -/
structure Flags where
  userPresent : Bool
  userVerified : Bool
  attestedDataIncluded : Bool
  extensionDataIncluded : Bool
deriving DecidableEq

/-- `_readFlags($binFlag)`. -/
def readFlags (binFlag : UInt8) : Flags where
  userPresent := decide (binFlag &&& 1 ≠ 0)
  userVerified := decide (binFlag &&& 4 ≠ 0)
  attestedDataIncluded := decide (binFlag &&& 64 ≠ 0)
  extensionDataIncluded := decide (binFlag &&& 128 ≠ 0)

/-- The parameters of a key that were read and checked, by its algorithm. -/
inductive KeyParams where
  | es256 (x y : Bytes)
  | rs256 (n e : Bytes)
  /-- another algorithm: nothing is read -/
  | unread

/-- `$credPKey`. -/
structure CredentialPublicKey where
  kty : Value
  alg : Value
  params : KeyParams

structure AttestedCredentialData where
  aaguid : Bytes
  credentialId : Bytes
  credentialPublicKey : CredentialPublicKey

structure AuthenticatorObj where
  rpIdHash : Bytes
  flags : Flags
  signCount : Nat
  attestedCredentialData : Option AttestedCredentialData

/-- `$s[$k]` of a string: negative offsets count from the end, and outside there is
nothing. -/
def stringOffset (s : Bytes) (k : Int) : Bytes :=
  let i := if k < 0 then s.length + k else k
  if i < 0 then [] else (s[i.toNat]?).toList

/-- `$enc[$k]`. -/
def index (enc : Value) (k : Int) : Except Stop Value :=
  match enc with
  | .array entries => .ok ((lookup entries (.int k)).getD .null)
  | .text s => .ok (.text (stringOffset s k))
  | .buffer _ => .error (.exception
      "Cannot use object of type lbuchs\\WebAuthn\\Binary\\ByteBuffer as array")
  | _ => .ok .null

/-- `$value === $n`. -/
def isInt (value : Value) (n : Int) : Bool :=
  match value with
  | .int m => m == n
  | _ => false

/-- `$value instanceof ByteBuffer ? $value->getBinaryString() : null`. The length of null
is 0, so it is the empty string here. -/
def binaryString (value : Value) : Bytes :=
  match value with
  | .buffer b => b
  | _ => []

/-- Throw unless the condition holds. -/
def check (ok : Bool) (message : Str) : Except Stop Unit :=
  if ok then .ok () else .error (.exception message)

/-- `_readCredentialPublicKeyES256($credPKey, $enc)`. -/
def readCredentialPublicKeyES256 (kty alg enc : Value) : Except Stop KeyParams := do
  let crv ← index enc (-1)
  let x := binaryString (← index enc (-2))
  let y := binaryString (← index enc (-3))
  check (isInt kty 2) "public key not in EC2 format"
  check (isInt alg (-7)) "signature algorithm not ES256"
  check (isInt crv 1) "curve not P-256"
  check (x.length = 32) "Invalid X-coordinate"
  check (y.length = 32) "Invalid Y-coordinate"
  return .es256 x y

/-- `_readCredentialPublicKeyRS256($credPKey, $enc)`. -/
def readCredentialPublicKeyRS256 (kty alg enc : Value) : Except Stop KeyParams := do
  let n := binaryString (← index enc (-1))
  let e := binaryString (← index enc (-2))
  check (isInt kty 3) "public key not in RSA format"
  check (isInt alg (-257)) "signature algorithm not ES256"
  check (n.length = 256) "Invalid RSA modulus"
  check (e.length = 3) "Invalid RSA public exponent"
  return .rs256 n e

section

variable (numericEq : Bytes → Int → Bool)

/-- `$value == $n`, for a number other than 0. -/
def looseEq (value : Value) (n : Int) : Bool :=
  match value with
  | .null => false
  | .bool b => b
  | .int m => m == n
  | .float x => x.eqInt n
  | .text s => numericEq s n
  -- an object counts as 1
  | .buffer _ => n == 1
  | .array _ => false

/-- The `switch` of `_readCredentialPublicKey`. -/
def readKeyParams (kty alg enc : Value) : Except Stop KeyParams :=
  if looseEq numericEq alg (-7) then readCredentialPublicKeyES256 kty alg enc
  else if looseEq numericEq alg (-257) then readCredentialPublicKeyRS256 kty alg enc
  else .ok .unread

/-- What `_readCredentialPublicKey` does with the decoded key. -/
def coseKey (enc : Value) : Except Stop CredentialPublicKey := do
  let kty ← index enc 1
  let alg ← index enc 3
  return { kty, alg, params := ← readKeyParams numericEq kty alg enc }

/-- `_readCredentialPublicKey($binary, $offset, $endOffset)`: the key, and the offset after it. -/
def readCredentialPublicKey (binary : Bytes) (offset : Nat) :
    Except Stop (CredentialPublicKey × Nat) := do
  let (enc, endOffset) ← Cbor.decodeInPlace binary offset
  return (← coseKey numericEq enc, endOffset)

/-- `_readAttestData($binary, $endOffset)`: the data, and the offset after them. -/
def readAttestData (binary : Bytes) : Except Stop (AttestedCredentialData × Nat) :=
  if binary.length ≤ 55 then
    .error (.exception "Attested data should be present but is missing")
  else do
    let aaguid := (binary.drop 37).take 16
    let length := beNat ((binary.drop 53).take 2)
    let credentialId := (binary.drop 55).take length
    let (credentialPublicKey, endOffset) ← readCredentialPublicKey numericEq binary (55 + length)
    return ({ aaguid, credentialId, credentialPublicKey }, endOffset)

/-- `_readExtensionData($binary)`. -/
def readExtensionData (binary : Bytes) : Except Stop Unit := do
  let ext ← Cbor.decode binary
  check ext.isArray "invalid extension data"

/-- The attested data, if the flag for them is set, and the offset after them. -/
def readAttested (flags : Flags) (binary : Bytes) :
    Except Stop (Option AttestedCredentialData × Nat) :=
  if flags.attestedDataIncluded then do
    let (data, offset) ← readAttestData numericEq binary
    return (some data, offset)
  else .ok (none, 37)

/-- The extensions, if the flag for them is set. -/
def readExtensions (flags : Flags) (binary : Bytes) : Except Stop Unit :=
  if flags.extensionDataIncluded then readExtensionData binary else .ok ()

/-- `new AuthenticatorData($binary)`. -/
def construct (binary : Bytes) : Except Stop AuthenticatorObj :=
  if binary.length < 37 then .error (.exception "Invalid authenticatorData input")
  else do
    let flags := readFlags ((binary.drop 32).headD 0)
    let signCount := beNat ((binary.drop 33).take 4)
    let (attestedCredentialData, offset) ← readAttested numericEq flags binary
    readExtensions flags (binary.drop offset)
    return { rpIdHash := binary.take 32, flags, signCount, attestedCredentialData }

end

/-! ## Authenticator data as they are sent -/

/-- An attested credential as it is sent. -/
structure Attested where
  aaguid : Bytes
  aaguid_length : aaguid.length = 16
  credentialId : Bytes
  id_length : credentialId.length < 65536
  key : Cbor.Item
  key_wellFormed : key.WellFormed

namespace Attested

def encode (a : Attested) : Bytes :=
  a.aaguid ++ (bigEndian 2 a.credentialId.length ++ (a.credentialId ++ a.key.encode))

/-- What the receiver makes of it. -/
def read (numericEq : Bytes → Int → Bool) (a : Attested) : Except Stop AttestedCredentialData := do
  return {
    aaguid := a.aaguid
    credentialId := a.credentialId
    credentialPublicKey := ← coseKey numericEq a.key.value }

/-- What the receiver makes of it, if there is one. -/
def readOption (numericEq : Bytes → Int → Bool) :
    Option Attested → Except Stop (Option AttestedCredentialData)
  | none => .ok none
  | some a => do return some (← a.read numericEq)

end Attested

/-- Authenticator data as they are sent. Without extensions there may be bytes at the end
that nothing looks at. -/
structure Layout where
  rpIdHash : Bytes
  hash_length : rpIdHash.length = 32
  flags : UInt8
  signCount : UInt32
  attested : Option Attested
  attested_flag : attested.isSome = (readFlags flags).attestedDataIncluded
  tail : Bytes
  extensions : (readFlags flags).extensionDataIncluded = true →
    ∃ item : Cbor.Item, item.WellFormed ∧ item.value.isArray = true ∧ item.encode = tail

namespace Layout

/-- The fields before the attested credential. -/
def fixed (l : Layout) : Bytes := l.rpIdHash ++ (l.flags :: bigEndian 4 l.signCount.toNat)

def encode (l : Layout) : Bytes := l.fixed ++ (((l.attested.map Attested.encode).getD []) ++ l.tail)

/-- What the receiver makes of it. -/
def read (numericEq : Bytes → Int → Bool) (l : Layout) : Except Stop AuthenticatorObj := do
  let attested ← Attested.readOption numericEq l.attested
  return {
    rpIdHash := l.rpIdHash
    flags := readFlags l.flags
    signCount := l.signCount.toNat
    attestedCredentialData := attested }

end Layout

/-! ## The constructor accepts exactly the layouts -/

section

variable {numericEq : Bytes → Int → Bool} {binary : Bytes}

theorem check_ok_iff {ok : Bool} {message : Str} : check ok message = .ok () ↔ ok = true := by
  unfold check
  cases ok <;> simp

theorem readExtensionData_ok_iff : readExtensionData binary = .ok () ↔
    ∃ item : Cbor.Item, item.WellFormed ∧ item.value.isArray = true ∧ item.encode = binary := by
  unfold readExtensionData
  rw [except_bind_iff]
  constructor
  · rintro ⟨v, hdecode, harray⟩
    obtain ⟨item, hitem, hencode, rfl⟩ := Cbor.decode_item_iff.1 hdecode
    exact ⟨item, hitem, check_ok_iff.1 harray, hencode⟩
  · rintro ⟨item, hitem, harray, hencode⟩
    exact ⟨item.value, Cbor.decode_item_iff.2 ⟨item, hitem, hencode, rfl⟩, check_ok_iff.2 harray⟩

theorem readCredentialPublicKey_ok_iff {offset offset' : Nat} {key : CredentialPublicKey} :
    readCredentialPublicKey numericEq binary offset = .ok (key, offset') ↔
      ∃ v, Reads binary offset v offset' ∧ coseKey numericEq v = .ok key := by
  unfold readCredentialPublicKey
  rw [except_bind_iff]
  constructor
  · rintro ⟨⟨v, next⟩, hdecode, hkey⟩
    obtain ⟨k, hk, hok⟩ := except_bind_ok hkey
    cases hok
    exact ⟨v, Cbor.decodeInPlace_ok_iff.1 hdecode, hk⟩
  · rintro ⟨v, hreads, hkey⟩
    refine ⟨(v, offset'), Cbor.decodeInPlace_ok_iff.2 hreads, ?_⟩
    dsimp only
    rw [hkey]
    rfl

/-- The fields of an attested credential, each at its offset. -/
theorem Attested.window_iff (a : Attested) : Window binary 37 a.encode ↔
    Window binary 37 a.aaguid ∧ Window binary 53 (bigEndian 2 a.credentialId.length) ∧
      Window binary 55 a.credentialId ∧ Window binary (55 + a.credentialId.length) a.key.encode := by
  rw [Attested.encode, window_append, window_append, window_append, a.aaguid_length, length_bigEndian]

theorem Attested.length_encode (a : Attested) :
    37 + a.encode.length = 55 + a.credentialId.length + a.key.encode.length := by
  simp only [Attested.encode, List.length_append, a.aaguid_length, length_bigEndian]
  omega

/-- The attested credential at its place. -/
theorem readAttestData_ok_iff {data : AttestedCredentialData} {offset : Nat} :
    readAttestData numericEq binary = .ok (data, offset) ↔
      ∃ a : Attested, Window binary 37 a.encode ∧ offset = 37 + a.encode.length ∧
        a.read numericEq = .ok data := by
  constructor
  · intro h
    unfold readAttestData at h
    split at h
    · cases h
    · next hlong =>
      obtain ⟨⟨key, next⟩, hkey, hok⟩ := except_bind_ok h
      cases hok
      obtain ⟨v, ⟨item, hitem, rfl, hitemWindow, rfl⟩, hcose⟩ := readCredentialPublicKey_ok_iff.1 hkey
      have hle := hitemWindow.le
      have hlen : ((binary.drop 53).take 2).length = 2 := by
        rw [List.length_take, List.length_drop]
        omega
      have hspell := bigEndian_beNat ((binary.drop 53).take 2)
      have hbound := beNat_lt ((binary.drop 53).take 2)
      rw [hlen] at hspell hbound
      have hid : ((binary.drop 55).take (beNat ((binary.drop 53).take 2))).length =
          beNat ((binary.drop 53).take 2) := by
        rw [List.length_take, List.length_drop]
        omega
      have haaguid : ((binary.drop 37).take 16).length = 16 := by
        rw [List.length_take, List.length_drop]
        omega
      refine ⟨⟨_, haaguid, _, hid.trans_lt hbound, item, hitem⟩, (Attested.window_iff _).2 ?_, ?_, ?_⟩
      · dsimp only
        rw [hid, hspell]
        exact ⟨window_take_drop (by omega), window_take_drop (by omega), window_take_drop (by omega),
          hitemWindow⟩
      · rw [Attested.length_encode]
        exact congrArg (55 + · + item.encode.length) hid.symm
      · unfold Attested.read
        dsimp only
        rw [hcose]
        rfl
  · rintro ⟨a, hwindow, rfl, hread⟩
    obtain ⟨key, hkey, hok⟩ := except_bind_ok hread
    cases hok
    obtain ⟨hw1, hw2, hw3, hw4⟩ := a.window_iff.1 hwindow
    have hpos := a.key.encode_pos
    have hle := hw4.le
    have h1 := hw1.drop_take
    have h2 := hw2.drop_take
    have h3 := hw3.drop_take
    rw [a.aaguid_length] at h1
    rw [length_bigEndian] at h2
    have hcount : beNat ((binary.drop 53).take 2) = a.credentialId.length := by
      rw [h2, beNat_bigEndian]
      exact Nat.mod_eq_of_lt a.id_length
    have hreadKey : readCredentialPublicKey numericEq binary (55 + a.credentialId.length) =
        .ok (key, 55 + a.credentialId.length + a.key.encode.length) :=
      readCredentialPublicKey_ok_iff.2 ⟨_, ⟨a.key, a.key_wellFormed, rfl, hw4, rfl⟩, hkey⟩
    unfold readAttestData
    rw [if_neg (by omega), hcount]
    dsimp only
    rw [hreadKey, h1, h3, a.length_encode]
    rfl

/-- The fixed fields, in front of anything. -/
structure Fixed (binary hash : Bytes) (flags : UInt8) (signCount : UInt32) (rest : Bytes) : Prop where
  binary_eq : binary = hash ++ (flags :: bigEndian 4 signCount.toNat) ++ rest
  hash_length : hash.length = 32

theorem exists_fixed (h : 37 ≤ binary.length) :
    ∃ hash flags signCount, Fixed binary hash flags signCount (binary.drop 37) := by
  have hflags := List.drop_eq_getElem_cons (by omega : 32 < binary.length)
  have hlen : ((binary.drop 33).take 4).length = 4 := by
    rw [List.length_take, List.length_drop]
    omega
  have hspell := bigEndian_beNat ((binary.drop 33).take 4)
  have hlt := beNat_lt ((binary.drop 33).take 4)
  rw [hlen] at hspell hlt
  refine ⟨binary.take 32, binary[32], UInt32.ofNat (beNat ((binary.drop 33).take 4)), ?_, ?_⟩
  · have hcount : binary.drop 33 = (binary.drop 33).take 4 ++ binary.drop 37 := by
      rw [← List.drop_drop (i := 4) (j := 33), List.take_append_drop]
    have hof : (UInt32.ofNat (beNat ((binary.drop 33).take 4))).toNat =
        beNat ((binary.drop 33).take 4) := UInt32.toNat_ofNat_of_lt hlt
    rw [hof, hspell, List.append_assoc, List.cons_append, ← hcount, ← hflags,
      List.take_append_drop]
  · rw [List.length_take]
    omega

namespace Fixed

variable {hash rest : Bytes} {flags : UInt8} {signCount : UInt32}

theorem length (h : Fixed binary hash flags signCount rest) : binary.length = 37 + rest.length := by
  rw [h.binary_eq]
  simp only [List.length_append, List.length_cons, length_bigEndian, h.hash_length]

theorem take (h : Fixed binary hash flags signCount rest) : binary.take 32 = hash := by
  rw [h.binary_eq, List.append_assoc, List.take_left' h.hash_length]

theorem flags_eq (h : Fixed binary hash flags signCount rest) : (binary.drop 32).headD 0 = flags := by
  rw [h.binary_eq, List.append_assoc, List.drop_left' h.hash_length]
  rfl

theorem count (h : Fixed binary hash flags signCount rest) :
    beNat ((binary.drop 33).take 4) = signCount.toNat := by
  have hdrop : binary.drop 33 = bigEndian 4 signCount.toNat ++ rest := by
    have heq : binary = (hash ++ [flags]) ++ (bigEndian 4 signCount.toNat ++ rest) := by
      rw [h.binary_eq]
      simp only [List.append_assoc, List.cons_append, List.nil_append]
    have hlen : (hash ++ [flags]).length = 33 := by
      rw [List.length_append, h.hash_length]
      rfl
    rw [heq, List.drop_left' hlen]
  have hlt : signCount.toNat < 256 ^ 4 := signCount.toNat_lt
  rw [hdrop, List.take_left' (length_bigEndian 4 _), beNat_bigEndian, Nat.mod_eq_of_lt hlt]

theorem drop (h : Fixed binary hash flags signCount rest) : binary.drop 37 = rest := by
  have hlen : (hash ++ (flags :: bigEndian 4 signCount.toNat)).length = 37 := by
    simp only [List.length_append, List.length_cons, length_bigEndian, h.hash_length]
  rw [h.binary_eq, List.drop_left' hlen]

theorem window (h : Fixed binary hash flags signCount rest) {w : Bytes} :
    Window binary 37 w ↔ ∃ after, rest = w ++ after := by
  constructor
  · rintro ⟨before, after, hb, hlen⟩
    refine ⟨after, ?_⟩
    rw [← h.drop, hb, List.append_assoc, List.drop_left' hlen]
  · rintro ⟨after, rfl⟩
    refine ⟨binary.take 37, after, ?_, ?_⟩
    · rw [List.append_assoc, ← h.drop, List.take_append_drop]
    · rw [List.length_take, h.length]
      omega

/-- The constructor on data that are long enough. -/
theorem construct_iff (h : Fixed binary hash flags signCount rest) {obj : AuthenticatorObj} :
    construct numericEq binary = .ok obj ↔ ∃ attested offset,
      readAttested numericEq (readFlags flags) binary = .ok (attested, offset) ∧
      readExtensions (readFlags flags) (binary.drop offset) = .ok () ∧
      obj = ⟨hash, readFlags flags, signCount.toNat, attested⟩ := by
  have hlen := h.length
  unfold construct
  rw [if_neg (by omega), h.flags_eq, h.count, h.take, except_bind_iff]
  constructor
  · rintro ⟨⟨attested, offset⟩, hattested, hrest⟩
    obtain ⟨⟨⟩, hext, hok⟩ := except_bind_ok hrest
    cases hok
    exact ⟨attested, offset, hattested, hext, rfl⟩
  · rintro ⟨attested, offset, hattested, hext, rfl⟩
    exact ⟨(attested, offset), hattested, except_bind_iff.2 ⟨(), hext, rfl⟩⟩

end Fixed

theorem readExtensions_ok_iff {flags : Flags} : readExtensions flags binary = .ok () ↔
    (flags.extensionDataIncluded = true →
      ∃ item : Cbor.Item, item.WellFormed ∧ item.value.isArray = true ∧ item.encode = binary) := by
  unfold readExtensions
  split
  · next hflag => simp only [hflag, forall_const, readExtensionData_ok_iff]
  · next hflag => simp [hflag]

theorem Layout.read_ok_iff {l : Layout} {obj : AuthenticatorObj} :
    l.read numericEq = .ok obj ↔ ∃ attested,
      Attested.readOption numericEq l.attested = .ok attested ∧ obj =
        ⟨l.rpIdHash, readFlags l.flags, l.signCount.toNat, attested⟩ := by
  unfold Layout.read
  rw [except_bind_iff]
  constructor
  · rintro ⟨attested, hattested, hok⟩
    cases hok
    exact ⟨attested, hattested, rfl⟩
  · rintro ⟨attested, hattested, rfl⟩
    exact ⟨attested, hattested, rfl⟩

theorem Layout.fixed_encode (l : Layout) : Fixed l.encode l.rpIdHash l.flags l.signCount
    (((l.attested.map Attested.encode).getD []) ++ l.tail) := by
  refine ⟨?_, l.hash_length⟩
  rw [Layout.encode, Layout.fixed]

/-- The bytes after the fixed fields are those of the attested credential that was read, and
what follows it. -/
theorem Fixed.readAttested_ok {hash rest : Bytes} {flags : UInt8} {signCount : UInt32}
    {attested : Option AttestedCredentialData} {offset : Nat}
    (h : Fixed binary hash flags signCount rest)
    (hread : readAttested numericEq (readFlags flags) binary = .ok (attested, offset)) :
    ∃ (sent : Option Attested) (after : Bytes), sent.isSome = (readFlags flags).attestedDataIncluded ∧
      rest = (sent.map Attested.encode).getD [] ++ after ∧ binary.drop offset = after ∧
      Attested.readOption numericEq sent = .ok attested := by
  unfold readAttested at hread
  split at hread
  · next hflag =>
    obtain ⟨⟨data, next⟩, hdata, hok⟩ := except_bind_ok hread
    cases hok
    obtain ⟨a, hwindow, rfl, hsent⟩ := readAttestData_ok_iff.1 hdata
    obtain ⟨after, rfl⟩ := h.window.1 hwindow
    refine ⟨some a, after, hflag.symm, rfl, ?_, ?_⟩
    · rw [← List.drop_drop, h.drop, List.drop_left]
    · rw [Attested.readOption, hsent]
      rfl
  · next hflag =>
    cases hread
    exact ⟨none, rest, (Bool.eq_false_iff.2 hflag).symm, rfl, h.drop, rfl⟩

theorem Layout.readAttested_encode {l : Layout} {attested : Option AttestedCredentialData}
    (hsent : Attested.readOption numericEq l.attested = .ok attested) :
    ∃ offset, WebauthnData.readAttested numericEq (readFlags l.flags) l.encode =
      .ok (attested, offset) ∧ l.encode.drop offset = l.tail := by
  have hfixed := l.fixed_encode
  have hflag := l.attested_flag
  unfold WebauthnData.readAttested
  rw [← hflag]
  cases ha : l.attested with
  | none =>
    rw [ha] at hsent hfixed
    cases hsent
    exact ⟨37, rfl, hfixed.drop⟩
  | some a =>
    rw [ha] at hsent hfixed
    obtain ⟨data, hdata, hok⟩ := except_bind_ok hsent
    cases hok
    have hattest : readAttestData numericEq l.encode = .ok (data, 37 + a.encode.length) :=
      readAttestData_ok_iff.2 ⟨a, hfixed.window.2 ⟨l.tail, rfl⟩, rfl, hdata⟩
    refine ⟨37 + a.encode.length, ?_, ?_⟩
    · rw [hattest]
      rfl
    · rw [← List.drop_drop, hfixed.drop]
      exact List.drop_left

/-- Accepted bytes are those of a layout, and the object has what was sent. -/
theorem exists_layout {obj : AuthenticatorObj} (h : construct numericEq binary = .ok obj) :
    ∃ l : Layout, l.encode = binary ∧ l.read numericEq = .ok obj := by
  have hlong : 37 ≤ binary.length := by
    by_contra hshort
    unfold construct at h
    rw [if_pos (by omega)] at h
    cases h
  obtain ⟨hash, flags, signCount, hfixed⟩ := exists_fixed hlong
  obtain ⟨attested, offset, hattested, hext, rfl⟩ := hfixed.construct_iff.1 h
  obtain ⟨sent, after, hflag, hrest, hdrop, hread⟩ := hfixed.readAttested_ok hattested
  rw [hdrop] at hext
  let l : Layout := ⟨hash, hfixed.hash_length, flags, signCount, sent, hflag, after,
    readExtensions_ok_iff.1 hext⟩
  refine ⟨l, ?_, Layout.read_ok_iff.2 ⟨attested, hread, rfl⟩⟩
  have hbinary := hfixed.binary_eq
  rw [hrest] at hbinary
  exact hbinary.symm

/-- **Authenticator data are accepted exactly in their layout**: the constructor returns an
object if the bytes are those of a layout whose key passes the checks, and then the object
has what was sent. -/
theorem construct_ok_iff {obj : AuthenticatorObj} :
    construct numericEq binary = .ok obj ↔
      ∃ l : Layout, l.encode = binary ∧ l.read numericEq = .ok obj := by
  refine ⟨exists_layout, ?_⟩
  rintro ⟨l, rfl, hread⟩
  obtain ⟨attested, hsent, rfl⟩ := Layout.read_ok_iff.1 hread
  obtain ⟨offset, hattested, hdrop⟩ := Layout.readAttested_encode hsent
  refine l.fixed_encode.construct_iff.2 ⟨attested, offset, hattested, ?_, rfl⟩
  rw [hdrop]
  exact readExtensions_ok_iff.2 l.extensions

/-! ## The key that was checked -/

/-- What the checks of a key leave: the type and the algorithm are those of its
parameters, which have their fixed sizes. -/
inductive Checked : CredentialPublicKey → Prop where
  | es256 {x y : Bytes} (hx : x.length = 32) (hy : y.length = 32) :
    Checked ⟨.int 2, .int (-7), .es256 x y⟩
  | rs256 {n e : Bytes} (hn : n.length = 256) (he : e.length = 3) :
    Checked ⟨.int 3, .int (-257), .rs256 n e⟩
  | unread {kty alg : Value} : Checked ⟨kty, alg, .unread⟩

theorem eq_int_of_isInt {value : Value} {n : Int} (h : isInt value n = true) : value = .int n := by
  cases value with
  | int m => rw [eq_of_beq h]
  | null => cases h
  | bool => cases h
  | float => cases h
  | text => cases h
  | buffer => cases h
  | array => cases h

theorem check_bind_ok {α : Type} {ok : Bool} {message : Str} {f : Unit → Except Stop α} {a : α}
    (h : check ok message >>= f = .ok a) : ok = true ∧ f () = .ok a := by
  obtain ⟨⟨⟩, hcheck, hf⟩ := except_bind_ok h
  exact ⟨check_ok_iff.1 hcheck, hf⟩

theorem readCredentialPublicKeyES256_ok {kty alg enc : Value} {params : KeyParams}
    (h : readCredentialPublicKeyES256 kty alg enc = .ok params) : Checked ⟨kty, alg, params⟩ := by
  obtain ⟨crv, -, h⟩ := except_bind_ok h
  obtain ⟨x, -, h⟩ := except_bind_ok h
  obtain ⟨y, -, h⟩ := except_bind_ok h
  obtain ⟨hkty, h⟩ := check_bind_ok h
  obtain ⟨halg, h⟩ := check_bind_ok h
  obtain ⟨-, h⟩ := check_bind_ok h
  obtain ⟨hx, h⟩ := check_bind_ok h
  obtain ⟨hy, h⟩ := check_bind_ok h
  cases h
  rw [eq_int_of_isInt hkty, eq_int_of_isInt halg]
  exact .es256 (of_decide_eq_true hx) (of_decide_eq_true hy)

theorem readCredentialPublicKeyRS256_ok {kty alg enc : Value} {params : KeyParams}
    (h : readCredentialPublicKeyRS256 kty alg enc = .ok params) : Checked ⟨kty, alg, params⟩ := by
  obtain ⟨n, -, h⟩ := except_bind_ok h
  obtain ⟨e, -, h⟩ := except_bind_ok h
  obtain ⟨hkty, h⟩ := check_bind_ok h
  obtain ⟨halg, h⟩ := check_bind_ok h
  obtain ⟨hn, h⟩ := check_bind_ok h
  obtain ⟨he, h⟩ := check_bind_ok h
  cases h
  rw [eq_int_of_isInt hkty, eq_int_of_isInt halg]
  exact .rs256 (of_decide_eq_true hn) (of_decide_eq_true he)

theorem coseKey_ok {enc : Value} {key : CredentialPublicKey} (h : coseKey numericEq enc = .ok key) :
    Checked key := by
  obtain ⟨kty, -, h⟩ := except_bind_ok h
  obtain ⟨alg, -, h⟩ := except_bind_ok h
  obtain ⟨params, hparams, h⟩ := except_bind_ok h
  cases h
  unfold readKeyParams at hparams
  split at hparams
  · exact readCredentialPublicKeyES256_ok hparams
  · split at hparams
    · exact readCredentialPublicKeyRS256_ok hparams
    · cases hparams
      exact .unread

theorem construct_checked {obj : AuthenticatorObj} {data : AttestedCredentialData}
    (h : construct numericEq binary = .ok obj) (hdata : obj.attestedCredentialData = some data) :
    Checked data.credentialPublicKey := by
  obtain ⟨l, -, hread⟩ := exists_layout h
  obtain ⟨attested, hsent, rfl⟩ := Layout.read_ok_iff.1 hread
  cases hdata
  cases ha : l.attested with
  | none =>
    rw [ha] at hsent
    cases hsent
  | some a =>
    rw [ha] at hsent
    obtain ⟨data', hdata, hok⟩ := except_bind_ok hsent
    cases hok
    obtain ⟨key, hkey, hok⟩ := except_bind_ok hdata
    cases hok
    exact coseKey_ok hkey

end

end Dockerset.WebauthnData

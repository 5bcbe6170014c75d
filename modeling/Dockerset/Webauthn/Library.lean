import Dockerset.Go.Utf8
import Dockerset.Logic.EState
import Mathlib.Data.List.DropRight

/-!
# Verifying an assertion (`WebAuthn/WebAuthn.php`)

`processGet` of the bundled library: the checks in their order, and what it
reads of the authenticator data. An exception is its message. What the PHP
runtime and OpenSSL do is kept as the functions of a `Lib`.

Values that PHP converts when it compares them are `Php`. A comparison with a
boolean or with null is one of booleans.
-/

namespace Dockerset.Webauthn
open Go Logic

/-! ## PHP values -/

inductive Php where
  | null
  | bool (b : Bool)
  | int (n : Int)
deriving DecidableEq

namespace Php

/-- `(bool)$x`. -/
def toBool : Php → Bool
  | null => false
  | bool b => b
  | int n => n ≠ 0

/-- `$x >= $y`. -/
def ge : Php → Php → Bool
  | int m, int n => decide (n ≤ m)
  | x, y => x.toBool || !y.toBool

end Php

/-- A value in decoded JSON. The modelled functions look at strings only. -/
inductive JsonValue where
  | str (s : Bytes)
  | other (tag : Nat)
deriving DecidableEq

/-- The properties of a client data object that are read. -/
structure ClientData where
  type : Option JsonValue
  challenge : Option JsonValue
  origin : Option JsonValue

/-- What `parse_url` finds. -/
structure UrlParts where
  scheme : Option Bytes
  host : Option Bytes

/-- The configured relying party, and the functions of the runtime. -/
structure Lib (Key : Type) where
  rpId : Bytes
  sha256 : Bytes → Bytes
  /-- `json_decode`, where the result is an object -/
  jsonDecode : Bytes → Option ClientData
  /-- `ByteBuffer::fromBase64Url` -/
  fromBase64Url : JsonValue → Except Str Bytes
  parseUrl : JsonValue → Except Str UrlParts
  /-- `preg_match` of the relying party's name at the end of a host -/
  endsInRpId : Bytes → Bool
  /-- `_readAttestData`: the offset after the attested data -/
  readAttestData : Bytes → Except Str Nat
  readExtensionData : Bytes → Except Str Unit
  opensslPkeyGetPublic : Bytes → Option Key
  opensslVerify : Bytes → Bytes → Key → Int

section

variable {Key : Type} (lib : Lib Key)

/-! ## The authenticator data -/

structure AuthenticatorData where
  rpIdHash : Bytes
  userPresent : Bool
  userVerified : Bool
  signCount : Nat
deriving DecidableEq

/-- A number in big-endian order. -/
def bigEndian (b : Bytes) : Nat := b.foldl (fun n x => n * 256 + x.toNat) 0

/-- `new AuthenticatorData($binary)`. -/
def authenticatorData (binary : Bytes) : Except Str AuthenticatorData :=
  if binary.length < 37 then .error "Invalid authenticatorData input"
  else do
    let flags := (binary.drop 32).headD 0
    let offset ← if flags &&& 64 ≠ 0 then lib.readAttestData binary else .ok 37
    if flags &&& 128 ≠ 0 then lib.readExtensionData (binary.drop offset) else .ok ()
    return {
      rpIdHash := binary.take 32
      userPresent := decide (flags &&& 1 ≠ 0)
      userVerified := decide (flags &&& 4 ≠ 0)
      signCount := bigEndian ((binary.drop 33).take 4) }

/-! ## The checks -/

/-- `_checkOrigin($origin)`. -/
def checkOrigin (origin : JsonValue) : Except Str Bool := do
  let url ← lib.parseUrl origin
  if lib.rpId ≠ ascii "localhost" ∧ url.scheme ≠ some (ascii "https") then return false
  else
    let host := (url.host.getD []).dropWhile (· == 0x2e)
    return lib.endsInRpId (host.rdropWhile (· == 0x2e))

/-- Raise the exception unless the condition holds. -/
def require (ok : Bool) (message : Str) : Except Str Unit := if ok then .ok () else .error message

/-- The challenge of the client data is the given one. -/
def checkChallenge (data : ClientData) (challenge : Bytes) : Except Str Bool :=
  match data.challenge with
  | none => .ok false
  | some value => do return decide ((← lib.fromBase64Url value) = challenge)

/-- The origin of the client data is allowed. -/
def checkDataOrigin (data : ClientData) : Except Str Bool :=
  match data.origin with
  | none => .ok false
  | some origin => checkOrigin lib origin

/-- What is signed: the authenticator data and the hash of the client data. -/
def dataToVerify (authData clientDataJSON : Bytes) : Bytes := authData ++ lib.sha256 clientDataJSON

/-- Step 17 of the verification. -/
def signatureCounterValid (prevSignatureCnt : Php) (signatureCounter : Nat) : Bool :=
  if prevSignatureCnt ≠ .null then
    if Php.int signatureCounter ≠ .int 0 ∨ prevSignatureCnt ≠ .int 0 then
      !(prevSignatureCnt.ge (.int signatureCounter))
    else true
  else true

/-- `processGet(…)`. -/
def processGet (clientDataJSON authData signature credentialPublicKey challenge : Bytes)
    (prevSignatureCnt : Php) (requireUserVerification requireUserPresent : Bool) : Except Str Unit := do
  let authenticatorObj ← authenticatorData lib authData
  match lib.jsonDecode clientDataJSON with
  | none => .error "invalid client data"
  | some clientData =>
    require (clientData.type = some (.str (ascii "webauthn.get"))) "invalid type"
    require (← checkChallenge lib clientData challenge) "invalid challenge"
    require (← checkDataOrigin lib clientData) "invalid origin"
    require (authenticatorObj.rpIdHash = lib.sha256 lib.rpId) "invalid rpId hash"
    require (!(requireUserPresent && !authenticatorObj.userPresent))
      "user not present during authentication"
    require (!(requireUserVerification && !authenticatorObj.userVerified))
      "user not verificated during authentication"
    match lib.opensslPkeyGetPublic credentialPublicKey with
    | none => .error "public key invalid"
    | some publicKey =>
      require (lib.opensslVerify (dataToVerify lib authData clientDataJSON) signature publicKey = 1)
        "invalid signature"
      require (signatureCounterValid prevSignatureCnt authenticatorObj.signCount)
        "signature counter not valid"

end

/-! ## When an assertion is accepted -/

section

variable {Key : Type} {lib : Lib Key}

theorem require_bind_iff {α : Type} {ok : Bool} {message : Str} {f : Unit → Except Str α} {a : α} :
    (require ok message >>= f) = .ok a ↔ ok = true ∧ f () = .ok a := by
  unfold require
  cases ok with
  | false =>
    constructor
    · intro h
      cases h
    · rintro ⟨h, -⟩
      cases h
  | true => exact ⟨fun h => ⟨rfl, h⟩, fun h => h.2⟩

theorem require_iff {ok : Bool} {message : Str} : require ok message = .ok () ↔ ok = true := by
  unfold require
  cases ok <;> simp

/-- The client data is a login's, with this challenge and an allowed origin. -/
def LoginData (lib : Lib Key) (clientDataJSON challenge : Bytes) : Prop :=
  ∃ data, lib.jsonDecode clientDataJSON = some data ∧
    data.type = some (.str (ascii "webauthn.get")) ∧
    checkChallenge lib data challenge = .ok true ∧ checkDataOrigin lib data = .ok true

theorem LoginData.challenge_eq {clientDataJSON challenge challenge' : Bytes}
    (h : LoginData lib clientDataJSON challenge) (h' : LoginData lib clientDataJSON challenge') :
    challenge = challenge' := by
  obtain ⟨data, hdecode, -, hcheck, -⟩ := h
  obtain ⟨data', hdecode', -, hcheck', -⟩ := h'
  obtain rfl : data = data' := Option.some.inj (hdecode.symm.trans hdecode')
  have hsent : ∀ {c}, checkChallenge lib data c = .ok true →
      ∃ value, data.challenge = some value ∧ lib.fromBase64Url value = .ok c := by
    intro c hc
    unfold checkChallenge at hc
    split at hc
    · cases hc
    · next value hvalue =>
      obtain ⟨sent, hsent, heq⟩ := except_bind_ok hc
      cases of_decide_eq_true (Except.ok.inj heq)
      exact ⟨value, hvalue, hsent⟩
  obtain ⟨value, hvalue, hread⟩ := hsent hcheck
  obtain ⟨value', hvalue', hread'⟩ := hsent hcheck'
  rw [hvalue] at hvalue'
  cases hvalue'
  exact Except.ok.inj (hread.symm.trans hread')

/-- The signature is one of the key, over the assertion's data. -/
def SignedBy (lib : Lib Key) (clientDataJSON authData signature credentialPublicKey : Bytes) : Prop :=
  ∃ publicKey, lib.opensslPkeyGetPublic credentialPublicKey = some publicKey ∧
    lib.opensslVerify (dataToVerify lib authData clientDataJSON) signature publicKey = 1

theorem processGet_ok_iff {clientDataJSON authData signature credentialPublicKey challenge : Bytes}
    {prevSignatureCnt : Php} {requireUserVerification requireUserPresent : Bool} :
    processGet lib clientDataJSON authData signature credentialPublicKey challenge prevSignatureCnt
      requireUserVerification requireUserPresent = .ok () ↔
    ∃ a, authenticatorData lib authData = .ok a ∧ LoginData lib clientDataJSON challenge ∧
      a.rpIdHash = lib.sha256 lib.rpId ∧ (requireUserPresent = true → a.userPresent = true) ∧
      (requireUserVerification = true → a.userVerified = true) ∧
      SignedBy lib clientDataJSON authData signature credentialPublicKey ∧
      signatureCounterValid prevSignatureCnt a.signCount = true := by
  have hflag : ∀ required set : Bool, (!(required && !set)) = true ↔ (required = true → set = true) := by
    decide
  unfold processGet
  rw [except_bind_iff]
  apply exists_congr
  intro a
  apply and_congr_right
  intro _
  constructor
  · intro h
    cases hdata : lib.jsonDecode clientDataJSON with
    | none => rw [hdata] at h; cases h
    | some data =>
      rw [hdata] at h
      obtain ⟨htype, h⟩ := require_bind_iff.1 h
      obtain ⟨okChallenge, hchallenge, h⟩ := except_bind_iff.1 h
      obtain ⟨hok, h⟩ := require_bind_iff.1 h
      obtain ⟨okOrigin, horigin, h⟩ := except_bind_iff.1 h
      obtain ⟨hok', h⟩ := require_bind_iff.1 h
      rw [hok] at hchallenge
      rw [hok'] at horigin
      obtain ⟨hrp, h⟩ := require_bind_iff.1 h
      obtain ⟨hpresent, h⟩ := require_bind_iff.1 h
      obtain ⟨hverified, h⟩ := require_bind_iff.1 h
      cases hkey : lib.opensslPkeyGetPublic credentialPublicKey with
      | none => rw [hkey] at h; cases h
      | some publicKey =>
        rw [hkey] at h
        obtain ⟨hsignature, h⟩ := require_bind_iff.1 h
        exact ⟨⟨data, hdata, of_decide_eq_true htype, hchallenge, horigin⟩, of_decide_eq_true hrp,
          (hflag _ _).1 hpresent, (hflag _ _).1 hverified,
          ⟨publicKey, hkey, of_decide_eq_true hsignature⟩, require_iff.1 h⟩
  · rintro ⟨⟨data, hdata, htype, hchallenge, horigin⟩, hrp, hpresent, hverified,
      ⟨publicKey, hkey, hsignature⟩, hcounter⟩
    rw [hdata]
    apply require_bind_iff.2
    refine ⟨decide_eq_true htype, ?_⟩
    apply except_bind_iff.2
    refine ⟨true, hchallenge, require_bind_iff.2 ⟨rfl, ?_⟩⟩
    apply except_bind_iff.2
    refine ⟨true, horigin, require_bind_iff.2 ⟨rfl, ?_⟩⟩
    apply require_bind_iff.2
    refine ⟨decide_eq_true hrp, require_bind_iff.2 ⟨(hflag _ _).2 hpresent, ?_⟩⟩
    apply require_bind_iff.2
    refine ⟨(hflag _ _).2 hverified, ?_⟩
    rw [hkey]
    apply require_bind_iff.2
    exact ⟨decide_eq_true hsignature, require_iff.2 hcounter⟩

end

end Dockerset.Webauthn

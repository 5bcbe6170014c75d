import Dockerset.WebauthnData.PublicKey

/-!
# Registering a credential (`processCreate` of `WebAuthn.php`, `AttestationObject.php`)

The attestation object is a CBOR map with the name of a format, a statement and the
authenticator data. The formats `none`, `packed` and `fido-u2f` are written out. The
other four read certificates of their vendors, and are functions of the environment,
as are OpenSSL and the conversions of the runtime.

No root certificates are configured, so the chain of certificates is never looked at.
-/

namespace Dockerset.WebauthnData
open Go PhpLang Logic Data Webauthn

/-- The digests of `_getCoseAlgorithm`. -/
inductive Digest where
  | sha1 | sha256 | sha384 | sha512
deriving DecidableEq

/-- What a format answers after it was constructed. -/
structure Format where
  validateAttestation : Bytes → Except Stop Bool
  /-- only `android-safetynet` has it -/
  ctsProfileMatch : Option Bool

/-- The formats that are not written out. -/
inductive VendorFormat where
  | androidKey | androidSafetynet | apple | tpm
deriving DecidableEq

/-- The runtime, OpenSSL and the other formats. -/
structure Env (Key : Type) where
  runtime : Lib Key
  /-- `==` between a string and an integer -/
  numericEq : Bytes → Int → Bool
  /-- `(string)$value` -/
  strval : Value → Str
  opensslErrorString : Str
  opensslVerify : Digest → Bytes → Bytes → Key → Int
  /-- the constructor, from the decoded object, the authenticator data and their bytes -/
  vendor : VendorFormat → List (PhpLang.Key × Value) → AuthenticatorObj → Bytes → Except Stop Format

/-! ## The library as `processGet` sees it -/

/-- An exception as the endpoint sees it. -/
def Stop.message : Stop → Str
  | .exception message => message
  | .stack => "Maximum call stack size reached"

def message {α : Type} : Except Stop α → Except Str α
  | .ok a => .ok a
  | .error e => .error e.message

section

variable {Key : Type} (env : Env Key)

/-- `ByteBuffer::fromBase64Url($value)->getBinaryString()`. -/
def fromJson : JsonValue → Except Str Bytes
  | .str s => .ok (ByteBuffer.fromBase64Url s)
  | .other tag => env.runtime.fromBase64Url (.other tag)

/-- The library with its own readers. -/
def library : Lib Key :=
  { env.runtime with
    fromBase64Url := fromJson env
    readAttestData := fun binary => message (Prod.snd <$> readAttestData env.numericEq binary)
    readExtensionData := fun binary => message (readExtensionData binary)
    opensslVerify := env.opensslVerify .sha256 }

/-! ## The formats -/

/-- `_getCoseAlgorithm($coseNumber)`. -/
def getCoseAlgorithm : Value → Option Digest
  | .int n =>
    if n = -65535 then some .sha1
    else if n ∈ [-257, -37, -7, 5] then some .sha256
    else if n ∈ [-258, -38, -35, 6] then some .sha384
    else if n ∈ [-259, -39, -36, 7] then some .sha512
    else none
  | _ => none

/-- `$attStmt[$name]`, if it is set. -/
def entry (entries : List (PhpLang.Key × Value)) (name : String) : Option Value :=
  lookup entries (.str (ascii name))

/-- `_createCertificatePem($x5c)`. -/
def createCertificatePem (x5c : Bytes) : Bytes :=
  ascii "-----BEGIN CERTIFICATE-----\n" ++
    (chunkSplit (Base64.encode x5c) 64 [0x0a] ++ ascii "-----END CERTIFICATE-----\n")

/-- A signature that is checked with the key of a certificate. -/
def verifyOverX5c (x5c : Bytes) (digest : Digest) (dataToVerify signature : Bytes) : Except Stop Bool :=
  match env.runtime.opensslPkeyGetPublic (createCertificatePem x5c) with
  | none => .error (.exception (("invalid public key: " : Str) ++ env.opensslErrorString))
  | some publicKey => .ok (env.opensslVerify digest dataToVerify signature publicKey = 1)

/-- A string is true unless it is empty or `0`. -/
def truthy (s : Bytes) : Bool := s ≠ [] ∧ s ≠ [0x30]

/-- The `sig` of a statement. -/
def readSig (attStmt : List (PhpLang.Key × Value)) : Except Stop Bytes :=
  match entry attStmt "sig" with
  | some (.buffer sig) => .ok sig
  | _ => .error (.exception "no signature found")

/-- The algorithm of a `packed` statement. -/
def readAlg (attStmt : List (PhpLang.Key × Value)) : Except Stop Digest :=
  match (entry attStmt "alg").bind getCoseAlgorithm with
  | some digest => .ok digest
  | none => .error (.exception
      (("unsupported alg: " : Str) ++ env.strval ((entry attStmt "alg").getD .null)))

/-- The first certificate of a `packed` statement; none is the empty string. -/
def readX5c (attStmt : List (PhpLang.Key × Value)) : Except Stop Bytes :=
  match entry attStmt "x5c" with
  | some (.array ((_, .buffer x5c) :: _)) => .ok x5c
  | some (.array (_ :: _)) => .error (.exception "invalid x5c certificate")
  | _ => .ok []

/-- `new Packed($enc, $authenticatorData)`, with its `validateAttestation`. -/
def packed (attStmt : List (PhpLang.Key × Value)) (obj : AuthenticatorObj) (binary : Bytes) :
    Except Stop Format := do
  let digest ← readAlg env attStmt
  let signature ← readSig attStmt
  let x5c ← readX5c attStmt
  return {
    validateAttestation := fun clientDataHash =>
      if truthy x5c then verifyOverX5c env x5c digest (binary ++ clientDataHash) signature
      else do
        -- a string that is no key fails the verification
        let publicKey := env.runtime.opensslPkeyGetPublic (← getPublicKeyPem env.numericEq obj)
        return publicKey.any fun key =>
          env.opensslVerify .sha256 (binary ++ clientDataHash) signature key = 1
    ctsProfileMatch := none }

/-- The only certificate of a `fido-u2f` statement. -/
def readOnlyX5c (attStmt : List (PhpLang.Key × Value)) : Except Stop Bytes :=
  match entry attStmt "x5c" with
  | some (.array [(.int 0, .buffer x5c)]) => .ok x5c
  | _ => .error (.exception "invalid x5c certificate")

/-- The algorithm of a `fido-u2f` statement may be left out. -/
def checkU2fAlg (attStmt : List (PhpLang.Key × Value)) : Except Stop Unit :=
  match entry attStmt "alg" with
  | none => .ok ()
  | some alg => check (isInt alg (-7))
      (("u2f only accepts algorithm -7 (\"ES256\"), but got " : Str) ++ env.strval alg)

/-- What a `fido-u2f` device signs. Without attested data there is no credential. -/
def u2fData (obj : AuthenticatorObj) (clientDataHash : Bytes) : Except Stop Bytes :=
  match obj.attestedCredentialData with
  | none => .error (.exception "credential id not included in authenticator data")
  | some data => .ok (0x00 :: (obj.rpIdHash ++ (clientDataHash ++
      (data.credentialId ++ publicKeyU2F data.credentialPublicKey.params))))

/-- `new U2f($enc, $authenticatorData)`, with its `validateAttestation`. The certificate is
looked at before the data. -/
def u2f (attStmt : List (PhpLang.Key × Value)) (obj : AuthenticatorObj) : Except Stop Format := do
  checkU2fAlg env attStmt
  let signature ← readSig attStmt
  let x5c ← readOnlyX5c attStmt
  return {
    validateAttestation := fun clientDataHash =>
      match env.runtime.opensslPkeyGetPublic (createCertificatePem x5c), u2fData obj clientDataHash with
      | none, _ => .error (.exception (("invalid public key: " : Str) ++ env.opensslErrorString))
      | some _, .error e => .error e
      | some publicKey, .ok dataToVerify =>
        .ok (env.opensslVerify .sha256 dataToVerify signature publicKey = 1)
    ctsProfileMatch := none }

/-- `new None($enc, $authenticatorData)`. -/
def noneFormat : Format := ⟨fun _ => .ok true, none⟩

/-- The `switch` over the name of the format; all seven are allowed. -/
def constructFormat (fmt : Bytes) (enc attStmt : List (PhpLang.Key × Value)) (obj : AuthenticatorObj)
    (binary : Bytes) : Except Stop Format :=
  if fmt = ascii "android-key" then env.vendor .androidKey enc obj binary
  else if fmt = ascii "android-safetynet" then env.vendor .androidSafetynet enc obj binary
  else if fmt = ascii "apple" then env.vendor .apple enc obj binary
  else if fmt = ascii "fido-u2f" then u2f env attStmt obj
  else if fmt = ascii "none" then .ok noneFormat
  else if fmt = ascii "packed" then packed env attStmt obj binary
  else if fmt = ascii "tpm" then env.vendor .tpm enc obj binary
  else .error (.exception (("invalid atttestation format: " : Str) ++ env.strval (.text fmt)))

/-! ## The attestation object -/

structure AttestationObject where
  authenticatorData : AuthenticatorObj
  attestationFormat : Format

def readEntries (enc : Value) : Except Stop (List (PhpLang.Key × Value)) :=
  match enc with
  | .array entries => .ok entries
  | _ => .error (.exception "invalid attestation format")

def readFmt (entries : List (PhpLang.Key × Value)) : Except Stop Bytes :=
  match entry entries "fmt" with
  | some (.text fmt) => .ok fmt
  | _ => .error (.exception "invalid attestation format")

def readAttStmt (entries : List (PhpLang.Key × Value)) : Except Stop (List (PhpLang.Key × Value)) :=
  match entry entries "attStmt" with
  | some (.array attStmt) => .ok attStmt
  | _ => .error (.exception "invalid attestation format (attStmt not available)")

def readAuthData (entries : List (PhpLang.Key × Value)) : Except Stop Bytes :=
  match entry entries "authData" with
  | some (.buffer binary) => .ok binary
  | _ => .error (.exception "invalid attestation format (authData not available)")

/-- `new AttestationObject($binary, $allowedFormats)`. -/
def attestationObject (object : Bytes) : Except Stop AttestationObject := do
  let entries ← readEntries (← Cbor.decode object)
  let fmt ← readFmt entries
  let attStmt ← readAttStmt entries
  let binary ← readAuthData entries
  let obj ← construct env.numericEq binary
  return ⟨obj, ← constructFormat env fmt entries attStmt obj binary⟩

/-! ## processCreate -/

/-- The client data is one of a registration, with this challenge and an allowed origin. -/
def checkCreateData (clientDataJSON challenge : Bytes) : Except Str Unit :=
  match (library env).jsonDecode clientDataJSON with
  | none => .error "invalid client data"
  | some clientData => do
    require (clientData.type = some (.str (ascii "webauthn.create"))) "invalid type"
    require (← checkChallenge (library env) clientData challenge) "invalid challenge"
    require (← checkDataOrigin (library env) clientData) "invalid origin"

/-- `getCredentialId()`. -/
def getCredentialId (obj : AuthenticatorObj) : Except Stop Bytes :=
  match obj.attestedCredentialData with
  | none => .error (.exception "credential id not included in authenticator data")
  | some data => .ok data.credentialId

/-- The checks on the attestation object, in their order. -/
def checkAttestation (attestation : AttestationObject) (clientDataHash : Bytes)
    (requireUserVerification requireUserPresent requireCtsProfileMatch : Bool) : Except Stop Unit := do
  let obj := attestation.authenticatorData
  check (obj.rpIdHash = env.runtime.sha256 env.runtime.rpId) "invalid rpId hash"
  check (← attestation.attestationFormat.validateAttestation clientDataHash)
    "invalid certificate signature"
  check (!(requireCtsProfileMatch && attestation.attestationFormat.ctsProfileMatch == some false))
    "invalid ctsProfileMatch: device is not approved as a Google-certified Android device."
  check (!(requireUserPresent && !obj.flags.userPresent)) "user not present during authentication"
  check (!(requireUserVerification && !obj.flags.userVerified))
    "user not verified during authentication"

/-- The part of `processCreate` after the client data. -/
def createFrom (clientDataHash object : Bytes)
    (requireUserVerification requireUserPresent requireCtsProfileMatch : Bool) :
    Except Stop Registration := do
  let attestation ← attestationObject env object
  checkAttestation env attestation clientDataHash requireUserVerification requireUserPresent
    requireCtsProfileMatch
  let credentialId ← getCredentialId attestation.authenticatorData
  let credentialPublicKey ← getPublicKeyPem env.numericEq attestation.authenticatorData
  return { userId := none, credentialId, credentialPublicKey, rootValid := none }

/-- `processCreate(…)`, as the endpoint calls it. -/
def processCreate (post : Attestation) (challenge : Bytes) : Except Str Registration := do
  checkCreateData env post.clientDataJSON challenge
  message (createFrom env (env.runtime.sha256 post.clientDataJSON) post.attestationObject
    false true true)

end

end Dockerset.WebauthnData

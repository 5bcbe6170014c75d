import Dockerset.Data.Base64
import Dockerset.Webauthn.Library

/-!
# The endpoint (`Public/webauthn.php`)

Five kinds of requests over two stores: the challenge in the session of the
client, and the registrations, which all sessions share. A request is taken
after its body has been decoded. `processCreate` of the library is a function of
the environment, since attestation formats are not modelled.

`persistent_start` and `persistent_end` read and write the registrations around
each request; requests are handled one after the other.
-/

namespace Dockerset.Webauthn
open Go Logic

/-- What `processCreate` stores for later logins. -/
structure Registration where
  userId : Option Bytes
  credentialId : Bytes
  credentialPublicKey : Bytes
  /-- the certificate leads to one of the selected roots, where it was looked at -/
  rootValid : Option Bool
deriving DecidableEq

/-- The body of `processCreate`. -/
structure Attestation where
  clientDataJSON : Bytes
  attestationObject : Bytes

/-- The body of `processGet`. -/
structure Assertion where
  clientDataJSON : Bytes
  authenticatorData : Bytes
  signature : Bytes
  id : Bytes

inductive Request where
  | getCreateArgs (userId : Option Bytes)
  | getGetArgs (userId : Option Bytes)
  | processCreate (userId : Option Bytes) (post : Attestation)
  | processGet (post : Assertion)
  | clearRegistrations

/-- A request of a session, with the random bytes that it may take. -/
structure Event (Sid : Type) where
  sid : Sid
  request : Request
  random : Bytes

inductive Response where
  | createArgs (challenge : Bytes)
  | getArgs (challenge : Bytes) (ids : List Bytes)
  | success (msg : Option Str)
  | failure (msg : Str)
deriving DecidableEq

/-- `$_SESSION['challenge']` of each session, and `$_PERSISTENT['registrations']`. -/
structure Server (Sid : Type) where
  challenge : Sid → Option Bytes
  registrations : Option (List Registration)

namespace Server

variable {Sid : Type} [DecidableEq Sid]

/-- No session has a challenge, and nothing is registered. -/
def fresh : Server Sid := ⟨fun _ => none, none⟩

def setChallenge (s : Server Sid) (sid : Sid) (challenge : Option Bytes) : Server Sid :=
  { s with challenge := fun sid' => if sid' = sid then challenge else s.challenge sid' }

/-- The registrations, if they are set. -/
def stored (s : Server Sid) : List Registration := s.registrations.getD []

end Server

def credentialIds (registrations : List Registration) (userId : Option Bytes) : List Bytes :=
  (registrations.filter fun reg => decide (reg.userId = userId)).map Registration.credentialId

/-- The public key of the first registration with the credential. -/
def publicKeyOf (registrations : List Registration) (id : Bytes) : Option Bytes :=
  (registrations.find? fun reg => decide (reg.credentialId = id)).map Registration.credentialPublicKey

section

variable {Key Sid : Type} [DecidableEq Sid] (lib : Lib Key)
  (libProcessCreate : Attestation → Bytes → Except Str Registration)

/-- The library call of the `processGet` endpoint. -/
def verifyLogin (registrations : List Registration) (challenge : Bytes) (post : Assertion) :
    Except Str Unit :=
  match publicKeyOf registrations post.id with
  | none => .error "Public Key for credential ID not found!"
  | some credentialPublicKey =>
    -- the sixth argument is the previous counter, and `requireUserPresent` has its default
    processGet lib post.clientDataJSON post.authenticatorData post.signature credentialPublicKey
      challenge (.bool false) false true

def processCreateMsg (data : Registration) : Str :=
  if data.rootValid = some false then
    "registration ok, but certificate does not match any of the selected root ca."
  else "registration success."

/-- One request. -/
def handle (s : Server Sid) (e : Event Sid) : Server Sid × Response :=
  match e.request with
  | .getCreateArgs _ => (s.setChallenge e.sid (some e.random), .createArgs e.random)
  | .getGetArgs userId =>
    let ids := credentialIds s.stored userId
    if ids = [] then
      (s, .failure (("no registrations in session for userId " : Str) ++
        (userId.getD []).map fun b => Char.ofNat b.toNat))
    else (s.setChallenge e.sid (some e.random), .getArgs e.random ids)
  | .processCreate userId post =>
    match libProcessCreate post ((s.challenge e.sid).getD []) with
    | .error msg => (s, .failure msg)
    | .ok data =>
      ({ s with registrations := some (s.stored ++ [{ data with userId }]) },
        .success (some (processCreateMsg data)))
  | .processGet post =>
    match verifyLogin lib s.stored ((s.challenge e.sid).getD []) post with
    | .error msg => (s, .failure msg)
    | .ok _ => (s, .success none)
  | .clearRegistrations =>
    ({ s with registrations := none }.setChallenge e.sid none,
      .success (some "all registrations deleted"))

end

/-! ## Which logins are accepted -/

section

variable {Key Sid : Type} [DecidableEq Sid] {lib : Lib Key}
  {libProcessCreate : Attestation → Bytes → Except Str Registration}

/-- The assertion answers the challenge and is signed by a registered key. -/
structure Genuine (lib : Lib Key) (challenge : Bytes) (reg : Registration) (post : Assertion)
    (a : AuthenticatorData) : Prop where
  data : LoginData lib post.clientDataJSON challenge
  parsed : authenticatorData lib post.authenticatorData = .ok a
  rpIdHash : a.rpIdHash = lib.sha256 lib.rpId
  userPresent : a.userPresent = true
  credential : reg.credentialId = post.id
  signed : SignedBy lib post.clientDataJSON post.authenticatorData post.signature
    reg.credentialPublicKey

theorem signatureCounterValid_false (n : Nat) :
    signatureCounterValid (.bool false) n = true ↔ n ≠ 0 := by
  unfold signatureCounterValid
  rw [if_pos (by decide), if_pos (.inr (by decide))]
  simp [Php.ge, Php.toBool]

theorem verifyLogin_ok_iff {registrations : List Registration} {challenge : Bytes} {post : Assertion} :
    verifyLogin lib registrations challenge post = .ok () ↔
      ∃ pem, publicKeyOf registrations post.id = some pem ∧
        ∃ a, authenticatorData lib post.authenticatorData = .ok a ∧
          LoginData lib post.clientDataJSON challenge ∧ a.rpIdHash = lib.sha256 lib.rpId ∧
          a.userPresent = true ∧
          SignedBy lib post.clientDataJSON post.authenticatorData post.signature pem ∧
          a.signCount ≠ 0 := by
  unfold verifyLogin
  cases hkey : publicKeyOf registrations post.id with
  | none => simp
  | some pem =>
    dsimp only
    rw [processGet_ok_iff]
    simp [signatureCounterValid_false]

/-- A login is answered with success when the library returns. -/
theorem handle_processGet_success {s : Server Sid} {e : Event Sid} {post : Assertion}
    (he : e.request = .processGet post) :
    (handle lib libProcessCreate s e).2 = .success none ↔
      verifyLogin lib s.stored ((s.challenge e.sid).getD []) post = .ok () := by
  unfold handle
  rw [he]
  dsimp only
  cases verifyLogin lib s.stored ((s.challenge e.sid).getD []) post <;> simp

theorem publicKeyOf_of_mem {registrations : List Registration} {reg : Registration}
    (h : reg ∈ registrations) : ∃ pem, publicKeyOf registrations reg.credentialId = some pem := by
  have hsome : (registrations.find? fun r => decide (r.credentialId = reg.credentialId)).isSome := by
    rw [List.find?_isSome]
    exact ⟨reg, h, decide_eq_true rfl⟩
  obtain ⟨r, hr⟩ := Option.isSome_iff_exists.1 hsome
  refine ⟨r.credentialPublicKey, ?_⟩
  rw [publicKeyOf, hr]
  rfl

/-- **Which genuine logins are accepted**: those whose counter is not 0. (If a
credential is stored twice, the first of its keys is the one that counts.) -/
theorem genuine_accepted_iff {s : Server Sid} {e : Event Sid} {post : Assertion} {challenge : Bytes}
    {reg : Registration} {a : AuthenticatorData} (he : e.request = .processGet post)
    (hsession : s.challenge e.sid = some challenge) (hreg : reg ∈ s.stored)
    (hgenuine : Genuine lib challenge reg post a) :
    (handle lib libProcessCreate s e).2 = .success none ↔
      a.signCount ≠ 0 ∧ ∀ pem, publicKeyOf s.stored post.id = some pem →
        SignedBy lib post.clientDataJSON post.authenticatorData post.signature pem := by
  rw [handle_processGet_success he, verifyLogin_ok_iff, hsession, Option.getD_some]
  constructor
  · rintro ⟨pem, hpem, a', ha', -, -, -, hsigned, hcounter⟩
    rw [hgenuine.parsed] at ha'
    cases ha'
    refine ⟨hcounter, ?_⟩
    intro pem' hpem'
    rw [hpem] at hpem'
    cases hpem'
    exact hsigned
  · rintro ⟨hcounter, hsigned⟩
    obtain ⟨pem, hpem⟩ := publicKeyOf_of_mem hreg
    rw [hgenuine.credential] at hpem
    exact ⟨pem, hpem, a, hgenuine.parsed, hgenuine.data, hgenuine.rpIdHash, hgenuine.userPresent,
      hsigned pem hpem, hcounter⟩

end

/-! ## A small environment -/

/-- `hash('sha256', 'localhost', true)`. -/
def localhostHash : Bytes :=
  [0x49, 0x96, 0x0d, 0xe5, 0x88, 0x0e, 0x8c, 0x68, 0x74, 0x34, 0x17, 0x0f, 0x64, 0x76, 0x60, 0x5b,
    0x8f, 0xe4, 0xae, 0xb9, 0xa2, 0x86, 0x32, 0xc7, 0x99, 0x5c, 0xf3, 0xba, 0x83, 0x1d, 0x97, 0x63]

/-- The client data that a browser makes on `http://localhost`. -/
def clientJson (type challenge : String) : Bytes :=
  ascii "\x7b\"type\":\"" ++ ascii type ++ ascii "\",\"challenge\":\"" ++ ascii challenge ++
    ascii "\",\"origin\":\"http://localhost\"\x7d"

/-- The client data that occur. -/
def clientTexts : List (String × String) :=
  [("webauthn.create", "CQ"), ("webauthn.get", "CQ"), ("webauthn.get", "Bw")]

/-- A runtime for these client data and one key, whose signatures repeat what is signed. -/
def plainLib : Lib Unit where
  rpId := ascii "localhost"
  sha256 b := if b = ascii "localhost" then localhostHash else b
  jsonDecode json :=
    (clientTexts.find? fun c => decide (json = clientJson c.1 c.2)).map fun c =>
      ⟨some (.str (ascii c.1)), some (.str (ascii c.2)), some (.str (ascii "http://localhost"))⟩
  fromBase64Url value :=
    match value with
    | .str s => .ok (Data.Base64.decodeLenient s)
    | .other _ => .error "strtr(): Argument #1 must be of type string"
  parseUrl value :=
    .ok (if value = .str (ascii "http://localhost") then ⟨some (ascii "http"), some (ascii "localhost")⟩
      else ⟨none, none⟩)
  endsInRpId host := host = ascii "localhost"
  readAttestData _ := .error "Attested data should be present but is missing"
  readExtensionData _ := .error "invalid extension data"
  opensslPkeyGetPublic pem := if pem = [2] then some () else none
  opensslVerify data signature _ := if signature = data then 1 else 0

/-- One key for every attestation. -/
def plainCreate (_ : Attestation) (_ : Bytes) : Except Str Registration := .ok ⟨none, [1], [2], none⟩

/-- Authenticator data with the user present and a counter below 256. -/
def plainData (counter : UInt8) : Bytes := localhostHash ++ [1, 0, 0, 0, counter]

/-- An assertion for the challenge 9. -/
def plainAssertion (counter : UInt8) : Assertion where
  clientDataJSON := clientJson "webauthn.get" "CQ"
  authenticatorData := plainData counter
  signature := plainData counter ++ clientJson "webauthn.get" "CQ"
  id := [1]

/-- One registration, and a session that has got the challenge 9. -/
def loginServer : Server Bool := ⟨fun sid => if sid then some [9] else none, some [⟨none, [1], [2], none⟩]⟩

theorem signedBy_plainAssertion (counter : UInt8) :
    SignedBy plainLib (plainAssertion counter).clientDataJSON (plainAssertion counter).authenticatorData
      (plainAssertion counter).signature [2] := ⟨(), rfl, if_pos rfl⟩

theorem genuine_plainAssertion {counter : UInt8} {a : AuthenticatorData}
    (h : authenticatorData plainLib (plainAssertion counter).authenticatorData = .ok a)
    (hrp : a.rpIdHash = localhostHash) (hpresent : a.userPresent = true) :
    Genuine plainLib [9] ⟨none, [1], [2], none⟩ (plainAssertion counter) a where
  data := ⟨_, rfl, rfl, rfl, rfl⟩
  parsed := h
  rpIdHash := hrp
  userPresent := hpresent
  credential := rfl
  signed := signedBy_plainAssertion counter

theorem genuine_accepted_counting :
    (handle plainLib plainCreate loginServer ⟨true, .processGet (plainAssertion 5), []⟩).2 =
      .success none := by
  have hparsed : authenticatorData plainLib (plainAssertion 5).authenticatorData =
      .ok ⟨localhostHash, true, false, 5⟩ := by
    decide
  apply (genuine_accepted_iff rfl rfl (List.mem_singleton_self _)
    (genuine_plainAssertion hparsed rfl rfl)).2
  refine ⟨by decide, ?_⟩
  intro pem hpem
  cases hpem
  exact signedBy_plainAssertion 5

/-- An authenticator that does not count is turned away. -/
theorem genuine_refused_at_zero :
    loginServer.challenge true = some [9] ∧ ⟨none, [1], [2], none⟩ ∈ loginServer.stored ∧
    Genuine plainLib [9] ⟨none, [1], [2], none⟩ (plainAssertion 0)
      ⟨localhostHash, true, false, 0⟩ ∧
    (handle plainLib plainCreate loginServer ⟨true, .processGet (plainAssertion 0), []⟩).2 =
      .failure "signature counter not valid" := by
  exact ⟨rfl, List.mem_singleton_self _, genuine_plainAssertion (by decide) rfl rfl, by decide⟩

end Dockerset.Webauthn

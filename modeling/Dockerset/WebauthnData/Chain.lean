import Dockerset.WebauthnData.Attestation
import Dockerset.Webauthn.Replay

/-!
# From the registration to the login

The endpoint with the library in full. `Created` is what `processCreate` has found
about a registration that it returns. Over a whole run, every accepted login goes
back to such a registration: it is signed by the key that the attestation carried,
for a credential that was not cleared in between.
-/

namespace Dockerset.WebauthnData
open Go PhpLang Logic Data Webauthn

/-! ## The library of `processGet` -/

section

variable {Key : Type} {env : Env Key}

/-- What `processGet` looks at. -/
def summary (obj : AuthenticatorObj) : AuthenticatorData :=
  ⟨obj.rpIdHash, obj.flags.userPresent, obj.flags.userVerified, obj.signCount⟩

theorem message_ok_iff {α : Type} {x : Except Stop α} {a : α} : message x = .ok a ↔ x = .ok a := by
  cases x with
  | error e =>
    constructor <;> intro h <;> cases h
  | ok b =>
    constructor <;> intro h <;> cases h <;> rfl

/-- The constructor as `processGet` sees it is the constructor in full. -/
theorem authenticatorData_eq (binary : Bytes) :
    authenticatorData (library env) binary =
      message (summary <$> construct env.numericEq binary) := by
  unfold authenticatorData construct
  by_cases hlen : binary.length < 37
  · rw [if_pos hlen, if_pos hlen]
    rfl
  · rw [if_neg hlen, if_neg hlen]
    obtain ⟨flags, hflags⟩ : ∃ flags, (binary.drop 32).headD 0 = flags := ⟨_, rfl⟩
    rw [hflags]
    unfold readAttested readExtensions library readFlags
    simp only [decide_eq_true_eq]
    by_cases hattested : flags &&& 64 ≠ 0
    · rw [if_pos hattested, if_pos hattested]
      cases readAttestData env.numericEq binary with
      | error e => rfl
      | ok attested =>
        by_cases hext : flags &&& 128 ≠ 0
        · simp only [if_pos hext]
          change (do
            message (readExtensionData (binary.drop attested.2))
            _) = message (summary <$> (do readExtensionData (binary.drop attested.2); _))
          cases readExtensionData (binary.drop attested.2) <;> rfl
        · simp only [if_neg hext]
          rfl
    · rw [if_neg hattested, if_neg hattested]
      by_cases hext : flags &&& 128 ≠ 0
      · simp only [if_pos hext]
        change (do
          message (readExtensionData (binary.drop 37))
          _) = message (summary <$> (do readExtensionData (binary.drop 37); _))
        cases readExtensionData (binary.drop 37) <;> rfl
      · simp only [if_neg hext]
        rfl

/-! ## What a registration stands for -/

/-- The client data of a registration: its type, the challenge and an allowed origin. -/
structure CreateData (env : Env Key) (clientDataJSON challenge : Bytes) (data : ClientData) : Prop where
  decoded : env.runtime.jsonDecode clientDataJSON = some data
  type : data.type = some (.str (ascii "webauthn.create"))
  challenge : checkChallenge (library env) data challenge = .ok true
  origin : checkDataOrigin (library env) data = .ok true

theorem checkCreateData_ok {clientDataJSON challenge : Bytes}
    (h : checkCreateData env clientDataJSON challenge = .ok ()) :
    ∃ data, CreateData env clientDataJSON challenge data := by
  unfold checkCreateData at h
  split at h
  · cases h
  · next data hdata =>
    obtain ⟨htype, h⟩ := require_bind_iff.1 h
    obtain ⟨okChallenge, hchallenge, h⟩ := except_bind_iff.1 h
    obtain ⟨hok, h⟩ := require_bind_iff.1 h
    obtain ⟨okOrigin, horigin, h⟩ := except_bind_iff.1 h
    rw [hok] at hchallenge
    rw [require_iff.1 h] at horigin
    exact ⟨data, hdata, of_decide_eq_true htype, hchallenge, horigin⟩

/-- The credential in an attestation object. -/
structure Carries (env : Env Key) (object : Bytes) (obj : AuthenticatorObj)
    (data : AttestedCredentialData) : Prop where
  sent : ∃ entries binary, Cbor.decode object = .ok (.array entries) ∧
    entry entries "authData" = some (.buffer binary) ∧ construct env.numericEq binary = .ok obj
  credential : obj.attestedCredentialData = some data

theorem readEntries_ok {enc : Value} {entries : List (PhpLang.Key × Value)}
    (h : readEntries enc = .ok entries) : enc = .array entries := by
  unfold readEntries at h
  split at h
  · cases h
    rfl
  · cases h

theorem readAuthData_ok {entries : List (PhpLang.Key × Value)} {binary : Bytes}
    (h : readAuthData entries = .ok binary) : entry entries "authData" = some (.buffer binary) := by
  unfold readAuthData at h
  split at h
  · next hentry =>
    cases h
    exact hentry
  · cases h

theorem attestationObject_ok {object : Bytes} {attestation : AttestationObject}
    (h : attestationObject env object = .ok attestation) :
    ∃ entries binary, Cbor.decode object = .ok (.array entries) ∧
      entry entries "authData" = some (.buffer binary) ∧
      construct env.numericEq binary = .ok attestation.authenticatorData := by
  obtain ⟨enc, hdecode, h⟩ := except_bind_ok h
  obtain ⟨entries, hentries, h⟩ := except_bind_ok h
  obtain ⟨fmt, -, h⟩ := except_bind_ok h
  obtain ⟨attStmt, -, h⟩ := except_bind_ok h
  obtain ⟨binary, hbinary, h⟩ := except_bind_ok h
  obtain ⟨obj, hobj, h⟩ := except_bind_ok h
  obtain ⟨format, -, h⟩ := except_bind_ok h
  cases h
  rw [readEntries_ok hentries] at hdecode
  exact ⟨entries, binary, hdecode, readAuthData_ok hbinary, hobj⟩

theorem checkAttestation_ok {attestation : AttestationObject} {clientDataHash : Bytes}
    {requireUserVerification requireCtsProfileMatch : Bool}
    (h : checkAttestation env attestation clientDataHash requireUserVerification true
      requireCtsProfileMatch = .ok ()) :
    attestation.authenticatorData.rpIdHash = env.runtime.sha256 env.runtime.rpId ∧
      attestation.authenticatorData.flags.userPresent = true := by
  obtain ⟨hhash, h⟩ := check_bind_ok h
  obtain ⟨valid, -, h⟩ := except_bind_ok h
  obtain ⟨-, h⟩ := check_bind_ok h
  obtain ⟨-, h⟩ := check_bind_ok h
  obtain ⟨hpresent, -⟩ := check_bind_ok h
  rw [Bool.true_and, Bool.not_not] at hpresent
  exact ⟨of_decide_eq_true hhash, hpresent⟩

theorem getCredentialId_ok {obj : AuthenticatorObj} {credentialId : Bytes}
    (h : getCredentialId obj = .ok credentialId) :
    ∃ data, obj.attestedCredentialData = some data ∧ data.credentialId = credentialId := by
  unfold getCredentialId at h
  split at h
  · cases h
  · next data hdata =>
    cases h
    exact ⟨data, hdata, rfl⟩

/-- All that `processCreate` has found about a registration that it returns. -/
structure Created (env : Env Key) (post : Attestation) (challenge : Bytes) (reg : Registration) :
    Prop where
  clientData : ∃ data, CreateData env post.clientDataJSON challenge data
  credential : ∃ obj data, Carries env post.attestationObject obj data ∧
    obj.rpIdHash = env.runtime.sha256 env.runtime.rpId ∧ obj.flags.userPresent = true ∧
    reg.credentialId = data.credentialId ∧
    Stored reg.credentialPublicKey data.credentialPublicKey.params

theorem processCreate_ok {post : Attestation} {challenge : Bytes} {reg : Registration}
    (h : processCreate env post challenge = .ok reg) : Created env post challenge reg := by
  obtain ⟨⟨⟩, hdata, h⟩ := except_bind_ok h
  have h := message_ok_iff.1 h
  obtain ⟨attestation, hattestation, h⟩ := except_bind_ok h
  obtain ⟨⟨⟩, hcheck, h⟩ := except_bind_ok h
  obtain ⟨credentialId, hid, h⟩ := except_bind_ok h
  obtain ⟨file, hfile, h⟩ := except_bind_ok h
  cases h
  obtain ⟨entries, binary, hdecode, hentry, hobj⟩ := attestationObject_ok hattestation
  obtain ⟨data, hattested, rfl⟩ := getCredentialId_ok hid
  obtain ⟨hhash, hpresent⟩ := checkAttestation_ok hcheck
  exact ⟨checkCreateData_ok hdata, attestation.authenticatorData, data,
    ⟨⟨entries, binary, hdecode, hentry, hobj⟩, hattested⟩, hhash, hpresent, rfl,
    stored_of_checked (construct_checked hobj hattested) hattested hfile⟩

end

/-! ## The state after a log -/

section

variable {Key Sid : Type} [DecidableEq Sid] {env : Env Key}

/-- The challenge of a session after one more entry. -/
def holds (sid : Sid) (challenge : Option Bytes) (entry : Entry Sid) : Option Bytes :=
  if entry.1.sid = sid then
    match entry.1.request, entry.2 with
    | .clearRegistrations, _ => none
    | _, .createArgs issued => some issued
    | _, .getArgs issued _ => some issued
    | _, _ => challenge
  else challenge

/-- The challenge that a session holds after a log: the last one that was issued to it,
unless it has cleared the registrations since. -/
def held (log : List (Entry Sid)) (sid : Sid) : Option Bytes :=
  log.foldl (holds sid) none

/-- The registration was made by an entry of the log, for the challenge that its session
held, and has not been cleared. -/
def Enrolled (env : Env Key) (log : List (Entry Sid)) (reg : Registration) : Prop :=
  ∃ (i : Nat) (e : Event Sid) (msg : Str) (userId : Option Bytes) (post : Attestation)
    (made : Registration),
    log[i]? = some (e, .success (some msg)) ∧ e.request = .processCreate userId post ∧
    Created env post ((held (log.take i) e.sid).getD []) made ∧ reg = { made with userId } ∧
    ∀ (k : Nat) (entry : Entry Sid), i < k → log[k]? = some entry →
      entry.1.request ≠ .clearRegistrations

variable {s s' : Server Sid} {log : List (Entry Sid)} {entry : Entry Sid}

theorem held_concat (sid : Sid) : held (log ++ [entry]) sid = holds sid (held log sid) entry := by
  rw [held, List.foldl_append]
  rfl

theorem Enrolled.concat {reg : Registration} (h : Enrolled env log reg)
    (hentry : entry.1.request ≠ .clearRegistrations) : Enrolled env (log ++ [entry]) reg := by
  obtain ⟨i, e, msg, userId, post, made, hi, hreq, hcreated, hreg, hkept⟩ := h
  have hlt := (List.getElem?_eq_some_iff.1 hi).1
  refine ⟨i, e, msg, userId, post, made, getElem?_concat_of_some hi, hreq, ?_, hreg, ?_⟩
  · rw [List.take_append_of_le_length (by omega)]
    exact hcreated
  · intro k entry' hk hentry'
    rcases getElem?_concat_eq hentry' with hold | ⟨-, rfl⟩
    · exact hkept k entry' hk hold
    · exact hentry

/-- One step: the challenges of all sessions. -/
theorem challenge_of_serves (h : Serves (library env) (processCreate env) s entry s') (sid : Sid) :
    s'.challenge sid = holds sid (s.challenge sid) entry := by
  obtain ⟨⟨sid', request, random⟩, response⟩ := entry
  unfold Serves at h
  have hset : ∀ (s : Server Sid) (c : Option Bytes),
      (s.setChallenge sid' c).challenge sid = if sid' = sid then c else s.challenge sid := by
    intro s c
    by_cases heq : sid' = sid
    · rw [if_pos heq]
      exact if_pos heq.symm
    · rw [if_neg heq]
      exact if_neg fun h => heq h.symm
  cases request with
  | getCreateArgs userId =>
    simp only [handle] at h
    cases h
    exact hset _ _
  | getGetArgs userId =>
    simp only [handle] at h
    split at h
    · cases h
      exact (ite_self _).symm
    · cases h
      exact hset _ _
  | processCreate userId post =>
    simp only [handle] at h
    split at h <;> cases h <;> exact (ite_self _).symm
  | processGet post =>
    simp only [handle] at h
    split at h <;> cases h <;> exact (ite_self _).symm
  | clearRegistrations =>
    cases h
    exact hset _ _

/-- One step: a stored registration was stored before, or was just made. -/
theorem stored_of_serves (h : Serves (library env) (processCreate env) s entry s')
    {reg : Registration} (hreg : reg ∈ s'.stored) :
    (reg ∈ s.stored ∧ entry.1.request ≠ .clearRegistrations) ∨
      ∃ userId post made msg, entry.1.request = .processCreate userId post ∧
        entry.2 = .success (some msg) ∧
        processCreate env post ((s.challenge entry.1.sid).getD []) = .ok made ∧
        reg = { made with userId } := by
  obtain ⟨⟨sid, request, random⟩, response⟩ := entry
  unfold Serves at h
  cases request with
  | getCreateArgs userId =>
    simp only [handle] at h
    cases h
    exact .inl ⟨hreg, Request.noConfusion⟩
  | getGetArgs userId =>
    simp only [handle] at h
    split at h <;> cases h <;> exact .inl ⟨hreg, Request.noConfusion⟩
  | processCreate userId post =>
    simp only [handle] at h
    split at h
    · cases h
      exact .inl ⟨hreg, Request.noConfusion⟩
    · next made hmade =>
      cases h
      rcases List.mem_append.1 hreg with hold | hnew
      · exact .inl ⟨hold, Request.noConfusion⟩
      · exact .inr ⟨userId, post, made, _, rfl, rfl, hmade, List.mem_singleton.1 hnew⟩
  | processGet post =>
    simp only [handle] at h
    split at h <;> cases h <;> exact .inl ⟨hreg, Request.noConfusion⟩
  | clearRegistrations =>
    cases h
    cases hreg

theorem publicKeyOf_some {registrations : List Registration} {id pem : Bytes}
    (h : publicKeyOf registrations id = some pem) :
    ∃ reg ∈ registrations, reg.credentialId = id ∧ reg.credentialPublicKey = pem := by
  obtain ⟨reg, hfind, hpem⟩ := Option.map_eq_some_iff.1 h
  have hid := List.find?_some hfind
  exact ⟨reg, List.mem_of_find?_eq_some hfind, of_decide_eq_true hid, hpem⟩

/-! ## Whole runs -/

/-- The login is one of a registration: it answers the challenge that its session holds,
and the key of the registration has signed it. -/
structure LoginOf (env : Env Key) (challenge : Bytes) (reg : Registration) (post : Assertion) :
    Prop where
  id : reg.credentialId = post.id
  data : LoginData (library env) post.clientDataJSON challenge
  signed : SignedBy (library env) post.clientDataJSON post.authenticatorData post.signature
    reg.credentialPublicKey
  authenticator : ∃ obj, construct env.numericEq post.authenticatorData = .ok obj ∧
    obj.rpIdHash = env.runtime.sha256 env.runtime.rpId ∧ obj.flags.userPresent = true ∧
    obj.signCount ≠ 0

/-- One step: an accepted login. -/
theorem login_of_serves (h : Serves (library env) (processCreate env) s entry s') {post : Assertion}
    (hreq : entry.1.request = .processGet post) (hok : entry.2 = .success none) :
    ∃ reg ∈ s.stored, LoginOf env ((s.challenge entry.1.sid).getD []) reg post := by
  have hresponse : (handle (library env) (processCreate env) s entry.1).2 = .success none := by
    rw [h]
    exact hok
  rw [handle_processGet_success hreq, verifyLogin_ok_iff] at hresponse
  obtain ⟨pem, hpem, a, ha, hdata, hhash, hpresent, hsigned, hcount⟩ := hresponse
  obtain ⟨reg, hmem, hid, rfl⟩ := publicKeyOf_some hpem
  rw [authenticatorData_eq] at ha
  obtain ⟨obj, hobj, hsummary⟩ := except_bind_ok (f := fun obj => .ok (summary obj))
    (x := construct env.numericEq post.authenticatorData) (b := a) (message_ok_iff.1 ha)
  cases hsummary
  exact ⟨reg, hmem, hid, hdata, hsigned, obj, hobj, hhash, hpresent, hcount⟩

/-- The state of the server is that of its log. -/
structure Tracks (env : Env Key) (log : List (Entry Sid)) (s : Server Sid) : Prop where
  challenge : ∀ sid, s.challenge sid = held log sid
  stored : ∀ reg ∈ s.stored, Enrolled env log reg

theorem tracks_fresh : Tracks env [] (Server.fresh : Server Sid) where
  challenge _ := rfl
  stored := by
    intro reg hreg
    cases hreg

theorem Tracks.step (h : Tracks env log s)
    (hs : Serves (library env) (processCreate env) s entry s') : Tracks env (log ++ [entry]) s' where
  challenge := by
    intro sid
    rw [challenge_of_serves hs, held_concat, h.challenge]
  stored := by
    intro reg hreg
    rcases stored_of_serves hs hreg with ⟨hold, hentry⟩ | ⟨userId, post, made, msg, hreq, hok, hmade, heq⟩
    · exact (h.stored reg hold).concat hentry
    · obtain ⟨e, response⟩ := entry
      cases hok
      rw [h.challenge] at hmade
      refine ⟨log.length, e, msg, userId, post, made, List.getElem?_concat_length, hreq, ?_, heq, ?_⟩
      · rw [List.take_left]
        exact processCreate_ok hmade
      · intro k entry' hk hentry'
        have hlt := (List.getElem?_eq_some_iff.1 hentry').1
        rw [List.length_append, List.length_singleton] at hlt
        omega

/-- **An accepted login goes back to a registration.** In every run of the endpoint, for
every login that it accepts there is an earlier registration with the credential of the
login that was not cleared since. It answered the challenge of its session, its
attestation object carried the credential and the key, and the login answers the
challenge of its own session and is signed by the key in the file that was stored. A
session that holds no challenge is checked against the empty one. -/
theorem login_enrolled (h : Runs (Serves (library env) (processCreate env)) (fun _ _ => True) .fresh log s)
    {j : Nat} {sid : Sid} {post : Assertion} (haccepts : Accepts log j sid post) :
    ∃ reg, Enrolled env (log.take j) reg ∧
      LoginOf env ((held (log.take j) sid).getD []) reg post := by
  have hall : Tracks env log s ∧ ∀ j sid post, Accepts log j sid post → ∃ reg,
      Enrolled env (log.take j) reg ∧ LoginOf env ((held (log.take j) sid).getD []) reg post := by
    apply h.inv fun log s => Tracks env log s ∧ ∀ j sid post, Accepts log j sid post → ∃ reg,
      Enrolled env (log.take j) reg ∧ LoginOf env ((held (log.take j) sid).getD []) reg post
    · refine ⟨tracks_fresh, ?_⟩
      intro j sid post haccepts
      exact absurd haccepts.lt (Nat.not_lt_zero j)
    · intro log s entry s' ih _ hs
      obtain ⟨htracks, hlogins⟩ := ih
      refine ⟨htracks.step hs, ?_⟩
      intro j sid post haccepts
      rcases haccepts.of_concat with hold | ⟨rfl, rfl, hreq, hok⟩
      · rw [List.take_append_of_le_length (Nat.le_of_lt hold.lt)]
        exact hlogins j sid post hold
      · rw [List.take_left]
        obtain ⟨reg, hmem, hlogin⟩ := login_of_serves hs hreq hok
        rw [htracks.challenge] at hlogin
        exact ⟨reg, htracks.stored reg hmem, hlogin⟩
  exact hall.2 j sid post haccepts

end

/-! ## A registration and a login -/

def sampleRegistration : Registration where
  userId := none
  credentialId := [0x0c]
  credentialPublicKey := pem (ec2Der (.es256 (List.replicate 32 1) (List.replicate 32 2)))
  rootValid := none

/-- The runtime with the sample key. No other format is known. -/
def plainEnv : Env Unit where
  runtime :=
    { plainLib with
      opensslPkeyGetPublic := fun file =>
        if file = sampleRegistration.credentialPublicKey then some () else none }
  numericEq _ _ := false
  strval _ := ""
  opensslErrorString := ""
  opensslVerify _ data signature _ := if signature = data then 1 else 0
  vendor _ _ _ _ := .error (.exception "")

/-- An attestation of the sample key without a statement, for the challenge 9. -/
def sampleAttestation : Attestation where
  clientDataJSON := clientJson "webauthn.create" "CQ"
  attestationObject := [0xa3, 0x63] ++ ascii "fmt" ++ [0x64] ++ ascii "none" ++ [0x67] ++
    ascii "attStmt" ++ [0xa0, 0x68] ++ ascii "authData" ++ [0x58, 0x85] ++ sampleES256

/-- An assertion of the sample credential, for the challenge 7. -/
def sampleAssertion : Assertion where
  clientDataJSON := clientJson "webauthn.get" "Bw"
  authenticatorData := plainData 5
  signature := plainData 5 ++ clientJson "webauthn.get" "Bw"
  id := [0x0c]

def sampleLog : List (Entry Bool) :=
  [(⟨true, .getCreateArgs none, [9]⟩, .createArgs [9]),
    (⟨true, .processCreate none sampleAttestation, []⟩, .success (some "registration success.")),
    (⟨true, .getGetArgs none, [7]⟩, .getArgs [7] [[0x0c]]),
    (⟨true, .processGet sampleAssertion, []⟩, .success none)]

set_option maxRecDepth 8000 in
theorem processCreate_sample :
    processCreate plainEnv sampleAttestation [9] = .ok sampleRegistration := rfl

theorem verifyLogin_sample :
    verifyLogin (library plainEnv) [sampleRegistration] [7] sampleAssertion = .ok () := by
  decide +kernel

theorem runs_sample : ∃ s, Runs (Serves (library plainEnv) (processCreate plainEnv))
    (fun _ _ => True) Server.fresh sampleLog s := by
  let s₁ : Server Bool := Server.fresh.setChallenge true (some [9])
  let s₂ : Server Bool := { s₁ with registrations := some [sampleRegistration] }
  let s₃ : Server Bool := s₂.setChallenge true (some [7])
  have h₁ : Serves (library plainEnv) (processCreate plainEnv) .fresh
      (⟨true, .getCreateArgs none, [9]⟩, .createArgs [9]) s₁ := rfl
  have h₂ : Serves (library plainEnv) (processCreate plainEnv) s₁
      (⟨true, .processCreate none sampleAttestation, []⟩,
        .success (some "registration success.")) s₂ := by
    unfold Serves handle
    dsimp only
    rw [show (s₁.challenge true).getD [] = [9] from rfl, processCreate_sample]
    rfl
  have h₃ : Serves (library plainEnv) (processCreate plainEnv) s₂
      (⟨true, .getGetArgs none, [7]⟩, .getArgs [7] [[0x0c]]) s₃ := rfl
  have h₄ : Serves (library plainEnv) (processCreate plainEnv) s₃
      (⟨true, .processGet sampleAssertion, []⟩, .success none) s₃ := by
    unfold Serves handle
    dsimp only
    rw [show (s₃.challenge true).getD [] = [7] from rfl, show s₃.stored = [sampleRegistration] from rfl,
      verifyLogin_sample]
  exact ⟨s₃, .step (.step (.step (.step .start trivial h₁) trivial h₂) trivial h₃) trivial h₄⟩

theorem login_enrolled_sample : Accepts sampleLog 3 true sampleAssertion ∧
    ∃ reg, Enrolled plainEnv (sampleLog.take 3) reg ∧
      LoginOf plainEnv ((held (sampleLog.take 3) true).getD []) reg sampleAssertion := by
  have haccepts : Accepts sampleLog 3 true sampleAssertion :=
    ⟨⟨true, .processGet sampleAssertion, []⟩, rfl, rfl, rfl⟩
  obtain ⟨s, hrun⟩ := runs_sample
  exact ⟨haccepts, login_enrolled hrun haccepts⟩

end Dockerset.WebauthnData

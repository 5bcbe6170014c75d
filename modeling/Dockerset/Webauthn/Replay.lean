import Dockerset.Logic.Runs
import Dockerset.Webauthn.Endpoint
import Mathlib.Logic.Function.Basic
import Mathlib.Tactic.IntervalCases

/-!
# Challenges over whole runs

A login should use up the challenge that was issued for it. The endpoint never
takes a challenge out of the session: it stands there until another request
overwrites it, and it may have been issued for a registration. `Corresponds` is
what a run of requests should satisfy, and `Unused` what a client has to keep to
for it to hold.
-/

namespace Dockerset.Webauthn
open Go Logic

section

variable {Key Sid : Type}

/-- A request with its answer. -/
abbrev Entry (Sid : Type) := Event Sid × Response

/-- The step of the server. -/
def Serves [DecidableEq Sid] (lib : Lib Key) (libProcessCreate : Attestation → Bytes → Except Str Registration)
    (s : Server Sid) (entry : Entry Sid) (s' : Server Sid) : Prop :=
  handle lib libProcessCreate s entry.1 = (s', entry.2)

/-- Entry `i` has issued the challenge for a login of the session. -/
def Issues (log : List (Entry Sid)) (i : Nat) (sid : Sid) (challenge : Bytes) : Prop :=
  ∃ e ids userId, log[i]? = some (e, .getArgs challenge ids) ∧ e.sid = sid ∧
    e.request = .getGetArgs userId

/-- Entry `j` is a login that was accepted. -/
def Accepts (log : List (Entry Sid)) (j : Nat) (sid : Sid) (post : Assertion) : Prop :=
  ∃ e, log[j]? = some (e, .success none) ∧ e.sid = sid ∧ e.request = .processGet post

/-- Each accepted login has a challenge of its own, which was issued earlier in its
session and is the one in its assertion. -/
def Corresponds (lib : Lib Key) (log : List (Entry Sid)) : Prop :=
  ∃ f : Nat → Nat,
    (∀ j sid post, Accepts log j sid post → f j < j ∧
      ∃ challenge, Issues log (f j) sid challenge ∧ LoginData lib post.clientDataJSON challenge) ∧
    ∀ j sid post j' sid' post', Accepts log j sid post → Accepts log j' sid' post' →
      f j = f j' → j = j'

/-- No challenge is issued twice for a login. -/
def ChallengesDiffer (log : List (Entry Sid)) : Prop :=
  ∀ i sid i' sid' challenge, Issues log i sid challenge → Issues log i' sid' challenge → i = i'

/-- No assertion is accepted twice. -/
def AcceptsOnce (log : List (Entry Sid)) : Prop :=
  ∀ j sid j' sid' post, Accepts log j sid post → Accepts log j' sid' post → j = j'

/-- A request that leaves the challenge of its session alone. -/
def Entry.Passes (entry : Entry Sid) : Prop :=
  match entry.1.request with
  | .processCreate _ _ => True
  | .getGetArgs _ => ∃ msg, entry.2 = .failure msg
  | _ => False

/-- The session has got a login challenge at `i` and has done nothing with it. -/
def Unused (log : List (Entry Sid)) (i : Nat) (sid : Sid) (challenge : Bytes) : Prop :=
  Issues log i sid challenge ∧
    ∀ j entry, i < j → log[j]? = some entry → entry.1.sid = sid → entry.Passes

/-- A login is attempted only with an unused login challenge. -/
def OneAttempt (log : List (Entry Sid)) (entry : Entry Sid) : Prop :=
  ∀ post, entry.1.request = .processGet post → ∃ i challenge, Unused log i entry.1.sid challenge

end

/-! ## Logs that grow -/

section

variable {Key Sid : Type} {lib : Lib Key} {log : List (Entry Sid)} {entry : Entry Sid} {sid : Sid}
  {challenge : Bytes} {i j : Nat} {post : Assertion}

theorem Issues.lt (h : Issues log i sid challenge) : i < log.length := by
  obtain ⟨e, ids, userId, hi, -⟩ := h
  exact (List.getElem?_eq_some_iff.1 hi).1

theorem Issues.concat (h : Issues log i sid challenge) : Issues (log ++ [entry]) i sid challenge := by
  obtain ⟨e, ids, userId, hi, hrest⟩ := h
  exact ⟨e, ids, userId, getElem?_concat_of_some hi, hrest⟩

theorem Unused.of_concat (h : Unused (log ++ [entry]) i sid challenge) (hi : i < log.length) :
    Unused log i sid challenge ∧ (entry.1.sid = sid → entry.Passes) := by
  obtain ⟨⟨e, ids, userId, hget, hrest⟩, hpass⟩ := h
  rw [List.getElem?_append_left hi] at hget
  constructor
  · refine ⟨⟨e, ids, userId, hget, hrest⟩, ?_⟩
    intro j entry' hj hentry'
    exact hpass j entry' hj (getElem?_concat_of_some hentry')
  · intro hsid
    exact hpass log.length entry hi (by simp) hsid

theorem Accepts.of_concat (h : Accepts (log ++ [entry]) j sid post) :
    Accepts log j sid post ∨ (j = log.length ∧ entry.1.sid = sid ∧
      entry.1.request = .processGet post ∧ entry.2 = .success none) := by
  obtain ⟨e, hj, hsid, hreq⟩ := h
  rcases getElem?_concat_eq hj with hold | ⟨hlast, rfl⟩
  · exact .inl ⟨e, hold, hsid, hreq⟩
  · exact .inr ⟨hlast, hsid, hreq, rfl⟩

theorem Accepts.lt (h : Accepts log j sid post) : j < log.length := by
  obtain ⟨e, hj, -⟩ := h
  exact (List.getElem?_eq_some_iff.1 hj).1

/-- An assertion has one challenge, which belongs to one login. -/
theorem Corresponds.acceptsOnce (h : Corresponds lib log) (hdiffer : ChallengesDiffer log) :
    AcceptsOnce log := by
  obtain ⟨f, hissued, hinj⟩ := h
  intro j sid j' sid' post haccepts haccepts'
  obtain ⟨-, challenge, hissues, hdata⟩ := hissued j sid post haccepts
  obtain ⟨-, challenge', hissues', hdata'⟩ := hissued j' sid' post haccepts'
  obtain rfl := hdata.challenge_eq hdata'
  exact hinj j sid post j' sid' post haccepts haccepts' (hdiffer _ _ _ _ _ hissues hissues')

theorem Corresponds.concat_other (h : Corresponds lib log)
    (hnew : ¬ ∃ post, entry.1.request = .processGet post ∧ entry.2 = .success none) :
    Corresponds lib (log ++ [entry]) := by
  obtain ⟨f, hissued, hinj⟩ := h
  have hold : ∀ {j sid post}, Accepts (log ++ [entry]) j sid post → Accepts log j sid post := by
    intro j sid post haccepts
    rcases haccepts.of_concat with hold | ⟨-, -, hreq, hok⟩
    · exact hold
    · exact absurd ⟨post, hreq, hok⟩ hnew
  refine ⟨f, ?_, ?_⟩
  · intro j sid post haccepts
    obtain ⟨hlt, challenge, hissues, hdata⟩ := hissued j sid post (hold haccepts)
    exact ⟨hlt, challenge, hissues.concat, hdata⟩
  · intro j sid post j' sid' post' h₁ h₂ heq
    exact hinj j sid post j' sid' post' (hold h₁) (hold h₂) heq

/-- No earlier login stands for an unused challenge: it would have used it. -/
theorem Unused.free {f : Nat → Nat} (h : Unused log i sid challenge)
    (hissued : ∀ j sid post, Accepts log j sid post → f j < j ∧
      ∃ challenge, Issues log (f j) sid challenge ∧ LoginData lib post.clientDataJSON challenge)
    {sid' : Sid} (haccepts : Accepts log j sid' post) : f j ≠ i := by
  rintro rfl
  obtain ⟨hlt, challenge', ⟨e, ids, userId, hget, hsid, -⟩, -⟩ := hissued j sid' post haccepts
  obtain ⟨⟨e', ids', userId', hget', hsid', -⟩, hpass⟩ := h
  rw [hget] at hget'
  cases hget'
  obtain ⟨e', hj, hsid'', hreq⟩ := haccepts
  have hp := hpass j _ hlt hj (by rw [hsid'', ← hsid, hsid'])
  simp [Entry.Passes, hreq] at hp

/-- A login that is accepted takes the unused challenge. -/
theorem Corresponds.concat_login (h : Corresponds lib log)
    (hreq : entry.1.request = .processGet post) (hunused : Unused log i entry.1.sid challenge)
    (hdata : LoginData lib post.clientDataJSON challenge) : Corresponds lib (log ++ [entry]) := by
  obtain ⟨f, hissued, hinj⟩ := h
  have hlast : Function.update f log.length i log.length = i := Function.update_self _ _ _
  have hother : ∀ {j sid post}, Accepts log j sid post → Function.update f log.length i j = f j := by
    intro j sid post haccepts
    exact Function.update_of_ne (Nat.ne_of_lt haccepts.lt) _ _
  refine ⟨Function.update f log.length i, ?_, ?_⟩
  · intro j sid post' haccepts
    rcases haccepts.of_concat with hold | ⟨rfl, hsid, hreq', -⟩
    · rw [hother hold]
      obtain ⟨hlt, challenge', hissues, hdata'⟩ := hissued j sid post' hold
      exact ⟨hlt, challenge', hissues.concat, hdata'⟩
    · rw [hlast]
      rw [hreq] at hreq'
      cases hreq'
      rw [hsid] at hunused
      exact ⟨hunused.1.lt, challenge, hunused.1.concat, hdata⟩
  · intro j sid post₁ j' sid' post₂ h₁ h₂ heq
    rcases h₁.of_concat with hold | ⟨rfl, -⟩
    · rcases h₂.of_concat with hold' | ⟨rfl, -⟩
      · rw [hother hold, hother hold'] at heq
        exact hinj j sid post₁ j' sid' post₂ hold hold' heq
      · rw [hother hold, hlast] at heq
        exact absurd heq (hunused.free hissued hold)
    · rcases h₂.of_concat with hold' | ⟨rfl, -⟩
      · rw [hother hold', hlast] at heq
        exact absurd heq.symm (hunused.free hissued hold')
      · rfl

end

section

variable {Key Sid : Type} [DecidableEq Sid] {lib : Lib Key}
  {libProcessCreate : Attestation → Bytes → Except Str Registration}

/-! ## One step -/

variable {s s' : Server Sid} {log : List (Entry Sid)} {entry : Entry Sid} {sid : Sid}
  {challenge : Bytes} {i j : Nat} {post : Assertion}

/-- The challenge of a session changes only with requests of the session that do
not pass it by. -/
theorem Serves.challenge_kept (h : Serves lib libProcessCreate s entry s')
    (hpass : entry.1.sid = sid → entry.Passes) : s'.challenge sid = s.challenge sid := by
  obtain ⟨⟨sid', request, random⟩, response⟩ := entry
  unfold Serves at h
  have hset : ∀ (s : Server Sid) (c : Option Bytes), sid' ≠ sid →
      (s.setChallenge sid' c).challenge sid = s.challenge sid := by
    intro s c hne
    exact if_neg fun heq => hne heq.symm
  cases request with
  | getCreateArgs userId =>
    simp only [handle] at h
    cases h
    apply hset
    exact fun heq => hpass heq
  | getGetArgs userId =>
    simp only [handle] at h
    split at h
    · cases h
      rfl
    · cases h
      apply hset
      intro heq
      obtain ⟨msg, hmsg⟩ := hpass heq
      cases hmsg
  | processCreate userId post =>
    simp only [handle] at h
    split at h <;> cases h <;> rfl
  | processGet post =>
    simp only [handle] at h
    split at h <;> cases h <;> rfl
  | clearRegistrations =>
    cases h
    apply hset
    exact fun heq => hpass heq

/-- The challenge that was issued is the one in the session. -/
theorem Serves.challenge_issued {ids : List Bytes} {userId : Option Bytes}
    (h : Serves lib libProcessCreate s entry s') (hreq : entry.1.request = .getGetArgs userId)
    (hargs : entry.2 = .getArgs challenge ids) : s'.challenge entry.1.sid = some challenge := by
  unfold Serves handle at h
  rw [hreq, hargs] at h
  dsimp only at h
  split at h
  · cases h
  · cases h
    exact if_pos rfl

/-- What an accepted login has shown. -/
theorem Serves.accepted (h : Serves lib libProcessCreate s entry s')
    (hreq : entry.1.request = .processGet post) (hok : entry.2 = .success none)
    (hchallenge : s.challenge entry.1.sid = some challenge) :
    LoginData lib post.clientDataJSON challenge := by
  have hresponse : (handle lib libProcessCreate s entry.1).2 = .success none := by
    rw [h]
    exact hok
  rw [handle_processGet_success hreq, verifyLogin_ok_iff, hchallenge] at hresponse
  obtain ⟨pem, -, a, -, hdata, -⟩ := hresponse
  exact hdata

/-! ## Whole runs -/

/-- An unused login challenge is still in the session. -/
theorem unused_in_session {s₀ : Server Sid}
    (h : Runs (Serves lib libProcessCreate) OneAttempt s₀ log s) :
    ∀ i sid challenge, Unused log i sid challenge → s.challenge sid = some challenge := by
  apply h.inv fun log s => ∀ i sid challenge, Unused log i sid challenge → s.challenge sid = some challenge
  · intro i sid challenge hu
    have hlt := hu.1.lt
    simp at hlt
  · intro log s entry s' ih _ hs i sid challenge hu
    by_cases hi : i < log.length
    · obtain ⟨hold, hpass⟩ := hu.of_concat hi
      rw [hs.challenge_kept hpass]
      exact ih i sid challenge hold
    · obtain ⟨⟨e, ids, userId, hget, hsid, hreq⟩, -⟩ := hu
      rcases getElem?_concat_eq hget with hold | ⟨-, rfl⟩
      · exact absurd (List.getElem?_eq_some_iff.1 hold).1 hi
      · rw [← hsid]
        exact hs.challenge_issued hreq rfl

theorem corresponds_of_runs {s₀ : Server Sid}
    (h : Runs (Serves lib libProcessCreate) OneAttempt s₀ log s) : Corresponds lib log := by
  induction h with
  | start =>
    refine ⟨id, ?_, ?_⟩
    · intro j sid post haccepts
      exact absurd haccepts.lt (Nat.not_lt_zero j)
    · intro j sid post j' sid' post' haccepts
      exact absurd haccepts.lt (Nat.not_lt_zero j)
  | @step log s s' entry hrun hallowed hs ih =>
    by_cases hnew : ∃ post, entry.1.request = .processGet post ∧ entry.2 = .success none
    · obtain ⟨post, hreq, hok⟩ := hnew
      obtain ⟨i, challenge, hunused⟩ := hallowed post hreq
      have hsession := unused_in_session hrun i _ challenge hunused
      exact ih.concat_login hreq hunused (hs.accepted hreq hok hsession)
    · exact ih.concat_other hnew

/-- **Each login consumes its own challenge**, in runs in which a login is only
attempted with an unused login challenge; so no assertion is accepted twice, as long as
the challenges differ. -/
theorem login_consumes_challenge {s₀ : Server Sid}
    (h : Runs (Serves lib libProcessCreate) OneAttempt s₀ log s) :
    Corresponds lib log ∧ (ChallengesDiffer log → AcceptsOnce log) :=
  ⟨corresponds_of_runs h, (corresponds_of_runs h).acceptsOnce⟩

end

/-! ## A login, and the same login again -/

def loginEvents : List (Event Bool) :=
  [⟨true, .getCreateArgs none, [8]⟩, ⟨true, .processCreate none ⟨clientJson "webauthn.create" "CA", []⟩, []⟩,
    ⟨true, .getGetArgs none, [9]⟩, ⟨true, .processGet (plainAssertion 5), []⟩]

/-- The log of a run with these requests. -/
def logOf (s : Server Bool) : List (Event Bool) → List (Entry Bool)
  | [] => []
  | e :: es =>
    (e, (handle plainLib plainCreate s e).2) :: logOf (handle plainLib plainCreate s e).1 es

theorem runs_logOf {allowed : List (Entry Bool) → Entry Bool → Prop} {s₀ s : Server Bool}
    {log : List (Entry Bool)} (h : Runs (Serves plainLib plainCreate) allowed s₀ log s)
    (es : List (Event Bool))
    (hallowed : ∀ k entry, (logOf s es)[k]? = some entry → allowed (log ++ (logOf s es).take k) entry) :
    ∃ s', Runs (Serves plainLib plainCreate) allowed s₀ (log ++ logOf s es) s' := by
  induction es generalizing log s with
  | nil => exact ⟨s, by simpa [logOf] using h⟩
  | cons e es ih =>
    have hfirst := hallowed 0 _ rfl
    rw [List.take_zero, List.append_nil] at hfirst
    have hnext : Runs (Serves plainLib plainCreate) allowed s₀
        (log ++ [(e, (handle plainLib plainCreate s e).2)]) (handle plainLib plainCreate s e).1 :=
      .step h hfirst rfl
    obtain ⟨s', hs'⟩ := ih hnext fun k entry hk => by
      have hlater := hallowed (k + 1) entry (by simpa [logOf] using hk)
      simpa [logOf] using hlater
    exact ⟨s', by simpa [logOf] using hs'⟩

def loginLog : List (Entry Bool) := logOf .fresh loginEvents

theorem unused_loginLog : Unused (loginLog.take 3) 2 true [9] := by
  refine ⟨⟨⟨true, .getGetArgs none, [9]⟩, [[1]], none, rfl, rfl, rfl⟩, ?_⟩
  intro j entry hj hentry
  have hlt := (List.getElem?_eq_some_iff.1 hentry).1
  have hlen : (loginLog.take 3).length = 3 := rfl
  omega

theorem login_consumes_challenge_once :
    Accepts loginLog 3 true (plainAssertion 5) ∧ Corresponds plainLib loginLog ∧
      (ChallengesDiffer loginLog → AcceptsOnce loginLog) := by
  have hrun : ∃ s', Runs (Serves plainLib plainCreate) OneAttempt .fresh ([] ++ loginLog) s' := by
    apply runs_logOf .start
    intro k entry hk post hpost
    have hlt := (List.getElem?_eq_some_iff.1 hk).1
    have hlen : (logOf .fresh loginEvents).length = 4 := rfl
    rw [hlen] at hlt
    interval_cases k
    all_goals cases hk
    · cases hpost
    · cases hpost
    · cases hpost
    · exact ⟨2, [9], unused_loginLog⟩
  obtain ⟨s', hrun⟩ := hrun
  exact ⟨⟨_, rfl, rfl, rfl⟩, login_consumes_challenge hrun⟩

/-- The log when the assertion is sent again. -/
def replayLog : List (Entry Bool) :=
  logOf .fresh (loginEvents ++ [⟨true, .processGet (plainAssertion 5), []⟩])

/-- An assertion is accepted twice, for one challenge. -/
theorem login_replayed :
    (∃ s', Runs (Serves plainLib plainCreate) (fun _ _ => True) .fresh replayLog s') ∧
    Accepts replayLog 3 true (plainAssertion 5) ∧
    Accepts replayLog 4 true (plainAssertion 5) ∧ ¬ Corresponds plainLib replayLog := by
  have h₁ : Accepts replayLog 3 true (plainAssertion 5) := ⟨_, rfl, rfl, rfl⟩
  have h₂ : Accepts replayLog 4 true (plainAssertion 5) := ⟨_, rfl, rfl, rfl⟩
  have hrun : ∃ s', Runs (Serves plainLib plainCreate) (fun _ _ => True) .fresh
      ([] ++ replayLog) s' := runs_logOf .start _ fun _ _ _ => trivial
  refine ⟨hrun, h₁, h₂, ?_⟩
  rintro ⟨f, hissued, hinj⟩
  -- only the third request has issued a login challenge
  have honly : ∀ i challenge, Issues replayLog i true challenge → i = 2 := by
    rintro i challenge ⟨e, ids, userId, hget, -, -⟩
    have hlt := (List.getElem?_eq_some_iff.1 hget).1
    have hlen : replayLog.length = 5 := rfl
    rw [hlen] at hlt
    interval_cases i
    all_goals first | rfl | cases hget
  obtain ⟨-, c₁, hi₁, -⟩ := hissued 3 true _ h₁
  obtain ⟨-, c₂, hi₂, -⟩ := hissued 4 true _ h₂
  have heq := hinj 3 true _ 4 true _ h₁ h₂ ((honly _ _ hi₁).trans (honly _ _ hi₂).symm)
  omega

end Dockerset.Webauthn

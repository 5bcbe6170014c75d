import Dockerset.Rewriter.Proxy

/-!
# What the proxy sends

The proxy sends one message or more, and the first one comes from the request that it
got. It is the message that the server had received if the target comes out of a
second decoding as it went into the first (`TargetKept`), the host is one for a URL
(`HostKept`), no field is filled in or dropped (`FieldsKept`) and the length of the
body is given in the same way (`FramingKept`). A redirect is followed
(`AnswerKept`).
-/

namespace Dockerset.Rewriter
open Go Url NetHttp

section

variable {m : Received} {q : Request} {u : URL} {content : Bytes}

/-- A host that the server accepts does not run into the path. -/
theorem plainHost_of_valid {host : Bytes} (h : host.all validHostByte = true) : PlainHost host := by
  have hbyte : ∀ c, validHostByte c = true → c ≠ 0x23 ∧ c ≠ 0x3f ∧ c ≠ 0x2f ∧ isControl c = false := by
    apply forall_byte
    decide +kernel
  rw [List.all_eq_true] at h
  refine ⟨fun hmem => (hbyte _ (h _ hmem)).1 rfl, fun hmem => (hbyte _ (h _ hmem)).2.1 rfl,
    fun hmem => (hbyte _ (h _ hmem)).2.2.1 rfl, ?_⟩
  rw [List.any_eq_false]
  intro c hc
  simp [(hbyte c (h c hc)).2.2.2]

/-- The target is written the same way again. -/
def TargetKept (m : Received) : Prop :=
  m.query = none ∧
    ((m.path.head? = some 0x2f ∧ Kept m.path m.urlPath) ∨ (m.path = [] ∧ m.method = ascii "CONNECT"))

/-- The host is one for a URL and for a `Host` field. -/
def HostKept (m : Received) : Prop :=
  (∃ host, parseHost m.host = some host ∧ host ≠ []) ∧ removeZone m.host = m.host

theorem urlPath_of_path_nil (h : m.path = []) : m.urlPath = [] := by
  have hdec := m.decodes
  rw [h] at hdec
  exact (Option.some.inj hdec).symm

theorem target_nil (method host : Bytes) :
    target method ⟨host, [], [], none⟩ =
      if method = ascii "CONNECT" then ([], none) else ([0x2f], none) := by
  unfold target
  split
  · next h => rw [if_pos h.1]
  · next h =>
    rw [if_neg fun heq => h ⟨heq, rfl⟩]
    rfl

theorem target_of_slash {method : Bytes} (h : u.path.head? = some 0x2f) :
    target method u = (u.requestPath, u.query) := by
  refine if_neg ?_
  rintro ⟨-, hnil⟩
  rw [hnil] at h
  cases h

theorem parseHttp_of_targetKept {host : Bytes} (hhost : parseHost m.host = some host)
    (h : TargetKept m) :
    ∃ u, parseHttp (m.host ++ m.urlPath) = some u ∧ target m.method u = (m.path, m.query) ∧
      u.host = host ∧ u.path = m.urlPath := by
  have hplain := plainHost_of_valid m.validHost
  obtain ⟨hquery, ⟨hslash, hkept⟩ | ⟨hnil, hconnect⟩⟩ := h
  · obtain ⟨u, hparse, hreq, hnone, hpath, hu⟩ := parseHttp_of_kept hplain m.decodes hslash hhost hkept
    have hhead := head?_unescape m.decodes hslash
    refine ⟨u, hparse, ?_, hu, hpath⟩
    rw [target_of_slash (hpath ▸ hhead), hreq, hnone, hquery]
  · refine ⟨⟨host, [], [], none⟩, ?_, ?_, rfl, (urlPath_of_path_nil hnil).symm⟩
    · rw [urlPath_of_path_nil hnil, List.append_nil, parseHttp_of_plain hplain, hhost]
      rfl
    · rw [target_nil, if_pos hconnect, hnil, hquery]

/-! ### Header fields -/

/-- No field is added or dropped: the message says itself what compression or range it
wants and who sends it, and nothing about caches and connections is left to be filled in. -/
structure FieldsKept (m : Received) : Prop where
  encoding : m.header.get (ascii "Accept-Encoding") ≠ [] ∨ m.header.get (ascii "Range") ≠ [] ∨
    m.method = ascii "HEAD"
  userAgent : ∃ v, v ≠ [] ∧ m.header.values (ascii "User-Agent") = [v]
  pragma : (m.header.values (ascii "Pragma")).head? = some (ascii "no-cache") →
    m.header.values (ascii "Cache-Control") ≠ []
  connection : headerValuesContainsToken (m.header.values (ascii "Connection")) (ascii "close") = true →
    hasToken (m.header.get (ascii "Connection")) (ascii "close") = true

theorem fixPragmaCacheControl_of_ne {h : Header} {name : Bytes} (hne : name ≠ ascii "Cache-Control") :
    (fixPragmaCacheControl h).values name = h.values name := by
  unfold fixPragmaCacheControl
  split
  · exact h.values_set_of_ne hne _
  · rfl

/-- A request that has the fields of a message. -/
structure HasFields (m : Received) (q : Request) : Prop where
  method : q.method = m.method
  header : q.header = fixPragmaCacheControl m.header
  close : q.close = headerValuesContainsToken (m.header.values (ascii "Connection")) (ascii "close")

theorem HasFields.values (h : HasFields m q) {name : Bytes} (hne : name ≠ ascii "Cache-Control") :
    q.header.values name = m.header.values name := by
  rw [h.header]
  exact fixPragmaCacheControl_of_ne hne

theorem HasFields.get (h : HasFields m q) {name : Bytes} (hne : name ≠ ascii "Cache-Control") :
    q.header.get name = m.header.get name := by
  rw [Header.get, h.values hne]
  rfl

theorem HasFields.requestedGzip (h : HasFields m q) :
    q.requestedGzip = false ↔ m.header.get (ascii "Accept-Encoding") ≠ [] ∨
      m.header.get (ascii "Range") ≠ [] ∨ m.method = ascii "HEAD" := by
  unfold Request.requestedGzip
  rw [h.get (by decide), h.get (by decide), h.method]
  simp only [Bool.and_eq_false_iff, beq_eq_false_iff_ne, bne_eq_false_iff_eq, ne_eq, or_assoc]

theorem HasFields.fieldsKept_of_eq (h : HasFields m q) (heq : q.fieldValues = m.header.values) :
    FieldsKept m where
  encoding := by
    have hae := congrFun heq (ascii "Accept-Encoding")
    rw [Request.fieldValues_acceptEncoding, h.values (by decide)] at hae
    rw [← h.requestedGzip]
    cases hgzip : q.requestedGzip with
    | false => rfl
    | true =>
      rw [hgzip] at hae
      simp at hae
  userAgent := by
    have hua := congrFun heq (ascii "User-Agent")
    rw [Request.fieldValues_userAgent, h.values (by decide)] at hua
    cases hv : m.header.values (ascii "User-Agent") with
    | nil =>
      rw [hv] at hua
      cases hua
    | cons v rest =>
      rw [hv] at hua
      simp only at hua
      split at hua
      · cases hua
      · next hne => exact ⟨v, hne, hua.symm⟩
  pragma := by
    intro hpragma hcc
    have hfield := congrFun heq (ascii "Cache-Control")
    rw [Request.fieldValues_other _ (by decide) (by decide) (by decide) (by decide), h.header,
      fixPragmaCacheControl, if_pos ⟨hpragma, hcc⟩, hcc, Header.values_set_self] at hfield
    cases hfield
  connection := by
    intro hclose
    have hfield := congrFun heq (ascii "Connection")
    rw [Request.fieldValues_connection, h.values (by decide), h.get (by decide), h.close,
      hclose] at hfield
    cases htoken : hasToken (m.header.get (ascii "Connection")) (ascii "close") with
    | true => rfl
    | false =>
      rw [htoken] at hfield
      simp at hfield

theorem HasFields.fieldValues_eq (h : HasFields m q) (hkept : FieldsKept m) :
    q.fieldValues = m.header.values := by
  have hheader : q.header = m.header := by
    rw [h.header, fixPragmaCacheControl, if_neg fun hc => hkept.pragma hc.1 hc.2]
  funext name
  by_cases hframing : name ∈ framingFields
  · rw [Request.fieldValues_framing _ hframing, m.noFraming name hframing]
  by_cases hua : name = ascii "User-Agent"
  · obtain ⟨v, hv, hvalues⟩ := hkept.userAgent
    rw [hua, Request.fieldValues_userAgent, hheader, hvalues]
    exact if_neg hv
  by_cases hconn : name = ascii "Connection"
  · rw [hconn, Request.fieldValues_connection, hheader, h.close, if_neg, List.nil_append]
    rw [Bool.and_eq_true]
    rintro ⟨hclose, hno⟩
    rw [hkept.connection hclose] at hno
    cases hno
  by_cases hae : name = ascii "Accept-Encoding"
  · rw [hae, Request.fieldValues_acceptEncoding, hheader, h.requestedGzip.2 hkept.encoding]
    exact List.append_nil _
  rw [Request.fieldValues_other _ hframing hua hconn hae, hheader]

/-! ### Framing -/

/-- The length of the body is given in the same way. A body that is empty and not chunked
is not sent as such in the request stage, where it has been replaced by a reader. -/
def FramingKept (response : Prop) [Decidable response] (m : Received) : Prop :=
  m.body = [] → m.framing ≠ .chunked →
    if response then
      m.framing = if [ascii "POST", ascii "PUT", ascii "PATCH"].contains m.method then .contentLength 0
        else .absent
    else
      m.framing = .absent ∧
        (requestMethodUsuallyLacksBody m.method = true ∨ m.method = ascii "CONNECT")

theorem message_eq_iff (hq : HasFields m q) (hhost : q.host = m.host) :
    q.message content = m.toMessage ↔
      target m.method q.url = (m.path, m.query) ∧ removeZone m.host = m.host ∧ FieldsKept m ∧
        q.framing content = m.framing ∧ content = m.body := by
  rw [← hhost, ← hq.method]
  constructor
  · intro h
    have hvalues := congrArg (fun msg : Message => msg.header.values) h
    exact ⟨Prod.ext (congrArg Message.path h) (congrArg Message.query h),
      (congrArg Message.host h).trans hhost.symm, hq.fieldsKept_of_eq hvalues,
      congrArg Message.framing h, congrArg Message.body h⟩
  · rintro ⟨htarget, hzone, hfields, hframing, hbody⟩
    unfold Request.message
    rw [htarget, hzone, hq.fieldValues_eq hfields, hframing, hbody, hq.method, hhost]

/-- The server's answer is not a redirect that the client follows. -/
def AnswerKept (response : Prop) (m : Received) (res : Response) : Prop :=
  res.header.get (ascii "Location") ≠ [] →
    res.status ∉ [301, 302, 303] ∧
      (res.status ∈ [307, 308] → ¬ (response ∧ m.body = [] ∧ m.framing ≠ .chunked))

end

/-! ## The proxy -/

section

variable {ω : Type} [HttpWriter ω] {gunzip : Bytes → Bytes}
  {redirect : Message → Response → Option (Message × Bool)} {errorText : Failure → Bytes}
  {upstream : Upstream} {w : ω} {q : Request} {u : URL} {content : Bytes} {msg : Message}

/-- The proxy, once it has a URL with a host. -/
theorem passProxy_eq (w : ω) (errorText : Failure → Bytes)
    (hparse : parseHttp (q.host ++ q.url.path) = some u) (hhost : u.host ≠ [])
    (hbody : q.body.readAll = some content) {sent : List Message} {out : Except Failure Response}
    (hexchange : exchange gunzip redirect upstream (q.withUrl u) 9 ((q.withUrl u).message content)
      (q.withUrl u).requestedGzip = (sent, out)) :
    passProxy gunzip redirect errorText upstream w q =
      (sent, answer errorText w out, q.withUrl u) := by
  have hurl : (q.withUrl u).url = u := rfl
  have hbody' : (q.withUrl u).body = q.body := rfl
  unfold passProxy clientDo
  simp only [hparse, hurl, hbody', hhost, if_false, hbody, hexchange]

/-- A request for a message, as the proxy gets it. -/
structure IsFor (m : Received) (q : Request) (content : Bytes) : Prop extends HasFields m q where
  host : q.host = m.host
  path : q.url.path = m.urlPath
  readAll : q.body.readAll = some content

variable {m : Received}

theorem decompress_of_fieldsKept (gunzip : Bytes → Bytes) (hq : HasFields m q) (h : FieldsKept m)
    (res : Response) : decompress gunzip q.requestedGzip res = res := by
  rw [hq.requestedGzip.2 h.encoding]
  rfl

theorem IsFor.sent (hq : IsFor m q content) (w : ω) (htarget : TargetKept m) (hhost : HostKept m)
    (hkept : FieldsKept m) (hbody : content = m.body)
    (hframing : ∀ u, (q.withUrl u).framing content = m.framing)
    (hanswer : ∀ u, (q.withUrl u).follows (upstream.respond m.toMessage) = false) :
    ∃ u, u.path = m.urlPath ∧ passProxy gunzip redirect errorText upstream w q =
      ([m.toMessage], answer errorText w (.ok (upstream.respond m.toMessage)), q.withUrl u) := by
  have hfields (u : URL) : HasFields m (q.withUrl u) := ⟨hq.method, hq.header, hq.close⟩
  obtain ⟨⟨host, hhost, hne⟩, hzone⟩ := hhost
  obtain ⟨u, hparse, htarget, rfl, hpath⟩ := parseHttp_of_targetKept hhost htarget
  rw [← hq.host, ← hq.path] at hparse
  have hmsg : (q.withUrl u).message content = m.toMessage :=
    (message_eq_iff (hfields u) hq.host).2 ⟨htarget, hzone, hkept, hframing u, hbody⟩
  have hdec := decompress_of_fieldsKept gunzip (hfields u) hkept (upstream.respond m.toMessage)
  refine ⟨u, hpath, ?_⟩
  rw [passProxy_eq w errorText hparse hne hq.readAll (exchange_of_not_follows 9 ?_), hmsg, hdec]
  rw [hmsg, hdec]
  exact hanswer u

end

end Dockerset.Rewriter

import Dockerset.GeoSni.Socks5
import Dockerset.Http.Request

/-!
# The HTTP tunnel (`dialHTTPProxy` in `internal/proxy/proxy.go`)

`dialHTTPProxy` writes the host into a request as it is and reads the reply
through a `bufio.Reader` of its own, which it drops when it returns the
connection. Both have consequences: `connect_parses_iff` says for which hosts the
proxy gets the request that was meant, and `connect_consumes_iff` that bytes of the tunnel get lost
unless a read ended where the reply ends.
-/

namespace Dockerset.GeoSni
open Go Logic Http

/-- The line feed that ends a line, and the blank line. -/
def lf : UInt8 := 0x0a

def crlf : Bytes := [0x0d, 0x0a]

/-- `fmt.Sprintf("%s:%d", host, port)`. -/
def connectTarget (host : Bytes) (port : Nat) : Bytes := host ++ ascii ":" ++ ascii (Nat.repr port)

/-- The CONNECT request. -/
def connectRequest (host : Bytes) (port : Nat) : Bytes :=
  ascii "CONNECT " ++ connectTarget host port ++ ascii " HTTP/1.1\r\nHost: " ++
    connectTarget host port ++ ascii "\r\nProxy-Connection: Keep-Alive\r\n\r\n"

/-- `strings.Contains(s, sub)`. -/
def containsBytes (s sub : Bytes) : Bool := s.tails.any sub.isPrefixOf

/-- The loop that drains the headers of the reply. -/
def drainHeaders (br : Reader) : Option (Unit × Reader) :=
  match _h : br.readString lf with
  | none => none
  | some (l, br') => if l = crlf then some ((), br') else drainHeaders br'
termination_by br.rest.length
decreasing_by exact (Reader.took_readString _h).1.rest_lt (Reader.took_readString _h).2.ne_nil

/-- `dialHTTPProxy(u, host, port, tlsProxy)`, on the plain or the TLS connection to
`u.Host`. -/
def dialHTTPProxy (host : Bytes) (port : Nat) : NetM Unit := do
  dialConn
  write (connectRequest host port)
  let (line, buf) ← withReader (·.readString lf) []
  if !containsBytes line (ascii "200") then
    throw (.text (ascii "proxy connect failed: " ++ trimSpaceBytes line))
  discard (withReader drainHeaders buf)

/-! ## The reply -/

/-- The header lines of a reply and the blank line. -/
def HeaderLines (lines : List Bytes) : Prop := ∀ l ∈ lines, Delimited lf l ∧ l ≠ crlf

/-- A status line with 200 in it, header lines and a blank line. -/
def ConnectReply (g : Bytes) : Prop :=
  ∃ status lines, Delimited lf status ∧ containsBytes status (ascii "200") = true ∧
    HeaderLines lines ∧ g = status ++ (lines.flatten ++ crlf)

theorem delimited_crlf : Delimited lf crlf := ⟨[0x0d], by decide, rfl⟩

theorem HeaderLines.inj {ls ls' : List Bytes} {a b : Bytes} (h : HeaderLines ls) (h' : HeaderLines ls')
    (heq : ls.flatten ++ crlf ++ a = ls'.flatten ++ crlf ++ b) : ls = ls' := by
  induction ls generalizing ls' with
  | nil =>
    cases ls' with
    | nil => rfl
    | cons l' ls' =>
      obtain ⟨hl', hne⟩ := h' l' (by simp)
      simp only [List.flatten_nil, List.nil_append, List.flatten_cons, List.append_assoc] at heq
      exact absurd (delimited_crlf.inj hl' heq).1.symm hne
  | cons l ls ih =>
    obtain ⟨hl, hne⟩ := h l (by simp)
    cases ls' with
    | nil =>
      simp only [List.flatten_nil, List.nil_append, List.flatten_cons, List.append_assoc] at heq
      exact absurd (hl.inj delimited_crlf heq).1 hne
    | cons l' ls' =>
      simp only [List.flatten_cons, List.append_assoc] at heq
      obtain ⟨rfl, heq'⟩ := hl.inj (h' l' (by simp)).1 heq
      have hrest : HeaderLines ls := fun x hx => h x (List.mem_cons_of_mem l hx)
      have hrest' : HeaderLines ls' := fun x hx => h' x (List.mem_cons_of_mem l hx)
      rw [ih hrest hrest' (by simpa using heq')]

/-- At most one reply stands at the start of a stream. -/
theorem ConnectReply.unique {g g' s : Bytes} (h : ConnectReply g) (h' : ConnectReply g')
    (hpre : g <+: s) (hpre' : g' <+: s) : g = g' := by
  obtain ⟨status, lines, hstatus, -, hlines, rfl⟩ := h
  obtain ⟨status', lines', hstatus', -, hlines', rfl⟩ := h'
  obtain ⟨a, rfl⟩ := hpre
  obtain ⟨b, heq⟩ := hpre'
  rw [List.append_assoc status', List.append_assoc status] at heq
  obtain ⟨rfl, heq'⟩ := hstatus'.inj hstatus heq
  rw [hlines'.inj hlines heq']

theorem drainHeaders_of_line {br br' : Reader} {l : Bytes} (h : br.readString lf = some (l, br')) :
    drainHeaders br = if l = crlf then some ((), br') else drainHeaders br' := by
  rw [drainHeaders, h]

theorem took_drainHeaders {br br' : Reader} {u : Unit} (h : drainHeaders br = some (u, br')) :
    ∃ lines, HeaderLines lines ∧ Took br br' (lines.flatten ++ crlf) := by
  induction br using drainHeaders.induct with
  | case1 br hr =>
    rw [drainHeaders, hr] at h
    cases h
  | case2 br br₁ hr =>
    rw [drainHeaders_of_line hr, if_pos rfl] at h
    cases h
    exact ⟨[], by simp [HeaderLines], by simpa using (Reader.took_readString hr).1⟩
  | case3 br l br₁ hr hl ih =>
    rw [drainHeaders_of_line hr, if_neg hl] at h
    obtain ⟨lines, hlines, htook⟩ := ih h
    obtain ⟨hfirst, hline⟩ := Reader.took_readString hr
    refine ⟨l :: lines, ?_, ?_⟩
    · intro x hx
      obtain rfl | hx := List.mem_cons.1 hx
      · exact ⟨hline, hl⟩
      · exact hlines x hx
    · rw [List.flatten_cons, List.append_assoc]
      exact hfirst.trans htook

theorem drainHeaders_returns {lines : List Bytes} {br : Reader} {v : Bytes} (h : HeaderLines lines)
    (hrest : br.rest = lines.flatten ++ crlf ++ v) : ∃ br', drainHeaders br = some ((), br') := by
  induction lines generalizing br with
  | nil =>
    obtain ⟨br', hr⟩ := Reader.readString_eq delimited_crlf (by simpa using hrest)
    exact ⟨br', by rw [drainHeaders_of_line hr, if_pos rfl]⟩
  | cons l lines ih =>
    obtain ⟨hl, hne⟩ := h l (by simp)
    rw [List.flatten_cons, List.append_assoc, List.append_assoc] at hrest
    obtain ⟨br₁, hr⟩ := Reader.readString_eq hl hrest
    have hrest₁ : br₁.rest = lines.flatten ++ crlf ++ v := by
      have hsplit := (Reader.took_readString hr).1.rest_eq
      rw [hrest] at hsplit
      rw [← List.append_cancel_left hsplit, List.append_assoc]
    obtain ⟨br', hr'⟩ := ih (fun x hx => h x (List.mem_cons_of_mem l hx)) hrest₁
    exact ⟨br', by rw [drainHeaders_of_line hr, if_neg hne, hr']⟩

section Dial

variable {c : Conn} {host : Bytes} {port : Nat}

/-- **What `dialHTTPProxy` does.** It returns after its reader has taken a reply
from the stream, and fails only if there is none or the connection does not hold. -/
theorem wp_dialHTTPProxy :
    WP (dialHTTPProxy host port)
      (fun _ c' => c.Open 1 ∧
        (∃ g buf, ConnectReply g ∧ Took ⟨[], c.feed⟩ ⟨buf, c'.feed⟩ g) ∧
        c'.written = c.written ++ [connectRequest host port])
      (fun _ c' => (c.Open 1 → ∀ g, ConnectReply g → ¬ g <+: stream c.feed) ∧
        (c.Open 1 ∧ c'.written = c.written ++ [connectRequest host port] ∨
          ¬ c.Open 1 ∧ c'.written = c.written)) c := by
  unfold dialHTTPProxy
  apply wp_dial_write
  swap
  · intro _ hclosed
    exact ⟨fun hopen => absurd hopen hclosed, .inr ⟨hclosed, rfl⟩⟩
  intro hopen _
  rw [WP.bind_iff]
  apply wp_withReader
  swap
  · intro hnone
    refine ⟨?_, .inl ⟨hopen, rfl⟩⟩
    rintro - _ ⟨status, lines, hstatus, -, -, rfl⟩ ⟨v, hv⟩
    obtain ⟨r', hr⟩ := Reader.readString_eq (r := ⟨[], c.feed⟩) hstatus
      (v := lines.flatten ++ crlf ++ v) (by rw [Reader.rest, List.nil_append, ← hv]; simp)
    rw [Conn.wrote_feed, hr] at hnone
    cases hnone
  intro line br hline
  rw [Conn.wrote_feed] at hline
  obtain ⟨htook, hdel⟩ := Reader.took_readString hline
  have hrest : stream c.feed = line ++ br.rest := by simpa [Reader.rest] using htook.rest_eq
  -- the status line of any reply in the stream is the line just read
  have first : ∀ {status : Bytes} {lines : List Bytes}, Delimited lf status →
      status ++ (lines.flatten ++ crlf) <+: stream c.feed →
      status = line ∧ lines.flatten ++ crlf <+: br.rest := by
    rintro status lines hstatus ⟨v, hv⟩
    rw [hrest, List.append_assoc] at hv
    obtain ⟨rfl, hv'⟩ := hstatus.inj hdel hv
    exact ⟨rfl, v, hv'⟩
  simp only
  by_cases h200 : containsBytes line (ascii "200") = true
  swap
  · simp only [Bool.not_eq_true] at h200
    rw [h200]
    refine ⟨?_, .inl ⟨hopen, rfl⟩⟩
    rintro - _ ⟨status, lines, hstatus, hstatus200, -, rfl⟩ hpre
    obtain ⟨rfl, -⟩ := first hstatus hpre
    rw [hstatus200] at h200
    cases h200
  rw [h200]
  change WP (discard (withReader drainHeaders br.buf)) _ _ _
  rw [discard_eq_bind, WP.bind_iff]
  apply wp_withReader
  · intro _ br' hdrain
    obtain ⟨lines, hlines, htook'⟩ := took_drainHeaders hdrain
    exact ⟨hopen, ⟨_, br'.buf, ⟨line, lines, hdel, h200, hlines, rfl⟩, htook.trans htook'⟩, rfl⟩
  · intro hnone
    refine ⟨?_, .inl ⟨hopen, rfl⟩⟩
    rintro - _ ⟨status, lines, hstatus, -, hlines, rfl⟩ hpre
    obtain ⟨-, v, hv⟩ := first hstatus hpre
    obtain ⟨br', hr⟩ := drainHeaders_returns hlines hv.symm
    have hbr : (⟨br.buf, br.feed⟩ : Reader) = br := rfl
    rw [hbr, hr] at hnone
    cases hnone

/-- **When nothing of the tunnel is lost.** After a reply the returned connection
goes on with the bytes behind it exactly if one of the reads ended with the
reply: what a longer read brought along stays in the dropped reader. -/
theorem connect_consumes_iff (c : Conn) (host : Bytes) (port : Nat) (g rest : Bytes)
    (hg : ConnectReply g) (hstream : stream c.feed = g ++ rest) :
    (∀ c', (dialHTTPProxy host port).run c = .ok () c' → stream c'.feed = rest) ↔
    (c.Open 1 → ∃ k, stream (c.feed.take k) = g) := by
  have hpre : g <+: stream c.feed := ⟨rest, hstream.symm⟩
  -- the reader has taken `g`, and its buffer holds what the connection has lost
  have taken : ∀ c', (dialHTTPProxy host port).run c = .ok () c' →
      ∃ buf, Took ⟨[], c.feed⟩ ⟨buf, c'.feed⟩ g ∧ rest = buf ++ stream c'.feed := by
    intro c' hr
    obtain ⟨-, ⟨g', buf, hg', htook⟩, -⟩ := wp_dialHTTPProxy.ok hr
    have hsplit : stream c.feed = g' ++ (buf ++ stream c'.feed) := by
      simpa [Reader.rest] using htook.rest_eq
    obtain rfl : g = g' := hg.unique hg' hpre ⟨_, hsplit.symm⟩
    exact ⟨buf, htook, List.append_cancel_left (hstream.symm.trans hsplit)⟩
  constructor
  · intro hall hopen
    cases hr : (dialHTTPProxy host port).run c with
    | error e c' => exact absurd hpre ((wp_dialHTTPProxy.error hr).1 hopen g hg)
    | ok _ c' =>
      obtain ⟨buf, htook, hrest⟩ := taken c' hr
      apply htook.buf_eq_nil_iff.1
      rw [hall c' hr] at hrest
      simpa using hrest
  · intro hk c' hr
    obtain ⟨hopen, -, -⟩ := wp_dialHTTPProxy.ok hr
    obtain ⟨buf, htook, hrest⟩ := taken c' hr
    obtain rfl : buf = [] := htook.buf_eq_nil_iff.2 (hk hopen)
    exact hrest.symm

/-- A reply with one header line. -/
def okReply : Bytes := ascii "HTTP/1.1 200 OK\r\nVia: p\r\n\r\n"

theorem connectReply_okReply : ConnectReply okReply := by
  have hstatus : Delimited lf (ascii "HTTP/1.1 200 OK\r\n") :=
    ⟨ascii "HTTP/1.1 200 OK\r", by decide +kernel, by decide +kernel⟩
  have hvia : Delimited lf (ascii "Via: p\r\n") :=
    ⟨ascii "Via: p\r", by decide +kernel, by decide +kernel⟩
  refine ⟨_, [ascii "Via: p\r\n"], hstatus, by decide +kernel, ?_, by decide +kernel⟩
  intro l hl
  obtain rfl := List.mem_singleton.1 hl
  exact ⟨hvia, by decide +kernel⟩

/-- A proxy whose reads return the given chunks. -/
def proxyConn (feed : Feed) : Conn := ⟨false, feed, none, []⟩

/-- The reply and the first bytes of the tunnel in two reads. -/
theorem connect_consumes_reply : ConnectReply okReply ∧
    ∀ c', (dialHTTPProxy (ascii "a") 443).run
        (proxyConn [⟨okReply, by decide⟩, ⟨ascii "hi", by decide⟩]) = .ok () c' →
      stream c'.feed = ascii "hi" := by
  refine ⟨connectReply_okReply, ?_⟩
  apply (connect_consumes_iff _ _ _ okReply (ascii "hi") connectReply_okReply (by decide)).2
  intro _
  exact ⟨1, by decide⟩

/-- The reply and the first bytes of the tunnel in one read: the bytes are lost. -/
theorem connect_loses_tunnel :
    ¬ ∀ c', (dialHTTPProxy (ascii "a") 443).run
        (proxyConn [⟨okReply ++ ascii "hi", by decide⟩]) = .ok () c' → stream c'.feed = ascii "hi" := by
  intro hall
  obtain ⟨u, hr⟩ := run_of_returns (x := dialHTTPProxy (ascii "a") 443)
    (s := proxyConn [⟨okReply ++ ascii "hi", by decide⟩]) (by decide +kernel)
  have hlost : stream (after (dialHTTPProxy (ascii "a") 443)
      (proxyConn [⟨okReply ++ ascii "hi", by decide⟩])).feed = [] := by decide +kernel
  have hgot := hall _ hr
  rw [hlost] at hgot
  cases hgot

end Dial

/-! ## The request -/

/-- The request that `dialHTTPProxy` means to make. -/
def meantRequest (host : Bytes) (port : Nat) : Request where
  method := ascii "CONNECT"
  target := connectTarget host port
  fields := [(ascii "Host", connectTarget host port), (ascii "Proxy-Connection", ascii "Keep-Alive")]

theorem port_all_digit (port : Nat) : (ascii (Nat.repr port)).all isDigit = true := by
  have digit : ∀ ch : Char, ch.isDigit = true → isDigit (UInt8.ofNat ch.toNat) = true := by
    intro ch hch
    have hrange : 48 ≤ ch.toNat ∧ ch.toNat < 58 := by
      simp only [Char.isDigit, Bool.and_eq_true, decide_eq_true_eq, UInt32.le_iff_toNat_le] at hch
      have hlo : (48 : UInt32).toNat = 48 := rfl
      have hhi : (57 : UInt32).toNat = 57 := rfl
      exact ⟨hch.1, Nat.lt_succ_of_le hch.2⟩
    have hall : ∀ n, n < 58 → 48 ≤ n → isDigit (UInt8.ofNat n) = true := by decide
    exact hall _ hrange.2 hrange.1
  rw [List.all_eq_true]
  intro x hx
  obtain ⟨ch, hch, rfl⟩ := List.mem_map.1 hx
  rw [Nat.toList_repr] at hch
  exact digit ch (Nat.isDigit_of_mem_toDigits (by omega) (by omega) hch)

theorem isAuthorityForm_connectTarget (host : Bytes) (port : Nat) :
    isAuthorityForm (connectTarget host port) = isUriHost host := by
  have htarget : connectTarget host port = host ++ 0x3a :: ascii (Nat.repr port) := by
    simp [connectTarget, ascii]
  rw [htarget, isAuthorityForm_append host (port_all_digit port)]

theorem visible_connectTarget {host : Bytes} (port : Nat) (h : isUriHost host = true) :
    (connectTarget host port).all isVisible = true := by
  have hport : (ascii (Nat.repr port)).all isVisible = true := by
    rw [List.all_eq_true]
    intro x hx
    have hdigit := List.all_eq_true.1 (port_all_digit port) x hx
    exact isVisible_of_name (by simp [isNameByte, hdigit])
  have hcolon : (ascii ":").all isVisible = true := by decide
  simp only [connectTarget, List.all_append, visible_of_isUriHost h, hport, hcolon, Bool.and_true]

theorem parseRequest_connectRequest (host : Bytes) (port : Nat) :
    parseRequest (connectRequest host port) = some (meantRequest host port, []) ↔
      isUriHost host = true := by
  constructor
  · intro h
    have hform := target_of_parseRequest h
    rwa [meantRequest, isAuthorityForm_connectTarget] at hform
  intro hhost
  have h := visible_connectTarget port hhost
  have hcr : 0x0d ∉ connectTarget host port := not_mem_visible h (by decide)
  have hlines : connectRequest host port =
      (ascii "CONNECT" ++ 0x20 :: (connectTarget host port ++ 0x20 :: ascii "HTTP/1.1")) ++
        0x0d :: 0x0a :: ((ascii "Host" ++ 0x3a :: 0x20 :: connectTarget host port) ++
          0x0d :: 0x0a :: ((ascii "Proxy-Connection" ++ 0x3a :: 0x20 :: ascii "Keep-Alive") ++
            0x0d :: 0x0a :: (0x0d :: 0x0a :: []))) := by
    simp [connectRequest, ascii]
  have hfields : parseFields ((ascii "Host" ++ 0x3a :: 0x20 :: connectTarget host port) ++
      0x0d :: 0x0a :: ((ascii "Proxy-Connection" ++ 0x3a :: 0x20 :: ascii "Keep-Alive") ++
        0x0d :: 0x0a :: (0x0d :: 0x0a :: []))) = some ((meantRequest host port).fields, []) := by
    apply parseFields_cons
    · simpa [ascii] using hcr
    · simp [ascii]
    · exact parseField_append (by decide +kernel) (by decide +kernel) (by decide +kernel) h
    · apply parseFields_cons (by decide +kernel) (by decide +kernel)
      · apply parseField_append
        all_goals decide +kernel
      · exact parseFields_end []
  have hfirst : 0x0d ∉ ascii "CONNECT" ++ 0x20 :: (connectTarget host port ++ 0x20 :: ascii "HTTP/1.1") := by
    simpa [ascii] using hcr
  rw [hlines]
  exact parseRequest_of_parts (takeLine_append _ hfirst)
    (parseRequestLine_append h (by rwa [isAuthorityForm_connectTarget])) hfields

/-- **When the request is the one that was meant.** The call fails before it writes
anything, or what it has written reads as one CONNECT request for the host, exactly
if the host is one that a URI can have or the request is not written. -/
theorem connect_parses_iff (c : Conn) (host : Bytes) (port : Nat) :
    ((∃ e c', (dialHTTPProxy host port).run c = .error e c' ∧ c'.written = c.written) ∨
      ∃ w, (after (dialHTTPProxy host port) c).written = c.written ++ [w] ∧
        parseRequest w = some (meantRequest host port, [])) ↔
    (c.Open 1 → isUriHost host = true) := by
  rw [← parseRequest_connectRequest host port]
  cases hr : (dialHTTPProxy host port).run c with
  | ok _ c' =>
    obtain ⟨hopen, -, hwritten⟩ := wp_dialHTTPProxy.ok hr
    rw [after_of_ok hr, hwritten]
    simp [hopen]
  | error e c' =>
    obtain ⟨-, ⟨hopen, hwritten⟩ | ⟨hclosed, hwritten⟩⟩ := wp_dialHTTPProxy.error hr
    · rw [after_of_error hr]
      simp [hopen, hwritten]
    · simp [hclosed, hwritten]

/-- A server name with a line break in it: the rest of it becomes a header. -/
theorem connect_forged :
    ∃ host, parseSNI id (clientHello (ascii "a\r\nx: y")) = .ok host ∧
      ¬ ((∃ e c', (dialHTTPProxy host 443).run (proxyConn [⟨okReply, by decide⟩]) = .error e c' ∧
          c'.written = (proxyConn [⟨okReply, by decide⟩]).written) ∨
        ∃ w, (after (dialHTTPProxy host 443) (proxyConn [⟨okReply, by decide⟩])).written =
            (proxyConn [⟨okReply, by decide⟩]).written ++ [w] ∧
          parseRequest w = some (meantRequest host 443, [])) := by
  refine ⟨ascii "a\r\nx: y", by decide +kernel, ?_⟩
  obtain ⟨u, hr⟩ := run_of_returns (x := dialHTTPProxy (ascii "a\r\nx: y") 443)
    (s := proxyConn [⟨okReply, by decide⟩]) (by decide +kernel)
  obtain ⟨-, -, hwritten⟩ := wp_dialHTTPProxy.ok hr
  rintro (⟨e, c', herr, -⟩ | ⟨w, hw, hparse⟩)
  · rw [herr] at hr
    cases hr
  · obtain rfl : w = connectRequest (ascii "a\r\nx: y") 443 := by simpa using hw.symm.trans hwritten
    have hall := (parseRequest_connectRequest _ _).1 hparse
    revert hall
    decide +kernel

end Dockerset.GeoSni
